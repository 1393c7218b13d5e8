import BurdahDos.Lib.Run
import BurdahDos.Shell.Defs
import Mathlib

/-!
# The history and the directory stack

`portal/lib/chgctxt.c`, `ctxt_get.c`, `realnum.c`, `ctxt_set.c` and the functions around them, with
the variables of `portal/suppl/src/env_*.c` as a list.  The items of a tag are numbered variables of
one segment; counters say which numbers there are, and the oldest are removed when there is no room.

* `ctxt_run`: in every run in which the numbers of the history stay below what the code can count,
  the stack is not popped when it is empty, and there is memory for what is popped or retrieved, a
  retrieval gives the line that it should, a pop the last directory pushed, only the oldest items
  have been lost, and `sizecur` is the size of what is there.
* `ctxtCreate_inOrder`: such a run can start from what `ctxtCreate` makes.
* `long_history`: after 32768 lines the last one is not found.
-/

set_option autoImplicit false

namespace BurdahDos
namespace Shell
namespace Ctxt

/-! ## Variables in a segment -/

/-- A variable: its name and its value. -/
abbrev Var := Str × Str

/-- `env_varlen`: the name, `=`, the value and the NUL. -/
def envVarlen (v : Var) : ℕ := v.1.length + v.2.length + 2

/-- The length of all variables. -/
def bytes (vars : List Var) : ℕ := (vars.map envVarlen).sum

/-- A segment with variables, and its length in bytes. -/
structure Env where
  vars : List Var
  length : ℕ

/-- `env_freeCount`: the variables are followed by an empty one and by the number of strings. -/
def Env.freeCount (env : Env) : ℕ := env.length - (bytes env.vars + 3)

/-- `env_findVar` -/
def Env.findVar (env : Env) (name : Str) : Option Str :=
  (env.vars.find? (·.1 == name)).map Prod.snd

/-- `env_subVarOffset` -/
def Env.subVar (env : Env) (name : Str) : Env :=
  { env with vars := env.vars.filter (·.1 != name) }

/-- `env_change`: 0 when there is no room or the variable is longer than 32 KB, 1 when a variable
has been changed or deleted, 2 when there is none to delete, 3 when it is new. -/
def envChange (env : Env) (name : Str) (value : Option Str) : ℕ × Env :=
  match env.findVar name, value with
  | some _, none => (1, env.subVar name)
  | some old, some value =>
    if 32767 < name.length + value.length + 2 ∨
        (old.length < value.length ∧ env.freeCount ≤ value.length - old.length) then (0, env)
    else
      (1, { env with vars := env.vars.map fun v => if v.1 == name then (name, value) else v })
  | none, none => (2, env)
  | none, some value =>
    if env.freeCount < name.length + value.length + 2 ∨ 32767 < name.length + value.length + 2 then
      (0, env)
    else (3, { env with vars := env.vars ++ [(name, value)] })

/-! ## The context -/

/-- `Context_Tag`, with `CTXT_TAG_ALIAS` behind it. -/
inductive Tag
  | history | dirstack | batch | lastdir | swapinfo | alias
  deriving DecidableEq

def Tag.code : Tag → UInt8
  | .history => 2
  | .dirstack => 3
  | .batch => 4
  | .lastdir => 5
  | .swapinfo => 6
  | .alias => 7

/-- `ctxt_info_t` -/
structure CtxtInfo where
  sizemax : ℕ
  sizecur : ℕ
  nummax : ℕ
  nummin : ℕ

/-- The segment `ctxt`, and `ctxt_info`. -/
structure State where
  env : Env
  info : Tag → CtxtInfo

def State.setInfo (s : State) (tag : Tag) (i : CtxtInfo) : State :=
  { s with info := Function.update s.info tag i }

/-- A number as `int`. -/
def int16 (n : ℤ) : ℤ := n.bmod 65536

/-- `E_NoMem` and `E_NoItems` -/
def eNoMem : ℕ := 4
def eNoItems : ℕ := 12

def hexDigit (d : ℕ) : UInt8 := UInt8.ofNat (if d < 10 then 48 + d else 87 + d)

/-- `ctxtMkItemName` -/
def ctxtMkItemName (tag : Tag) (num : ℕ) : Str :=
  if num ≠ 0 then
    [tag.code, hexDigit (num / 4096 % 16), hexDigit (num / 256 % 16), hexDigit (num / 16 % 16),
      hexDigit (num % 16)]
  else [tag.code]

/-- `ctxtProbeItemTag`: an item, and not the status of the tag. -/
def ctxtProbeItemTag (tag : Tag) (v : Var) : Bool :=
  match v.1 with
  | c :: d :: _ => c == tag.code && d != 61
  | _ => false

/-- `ctxtGet`, with whether the item is asked for and whether there is memory: 0, 1 when there is no
such item, 2 when there is no memory. -/
def ctxtGet (remove : Bool) (tag : Tag) (num : ℕ) (buf ok : Bool) (s : State) : ℕ × Str × State :=
  let name := ctxtMkItemName tag num
  match s.env.findVar name with
  | some value =>
    if buf && !ok then (2, [], s)
    else if remove then
      let i := s.info tag
      let len := envVarlen (name, value)
      let cur := if i.sizecur < len then 0 else i.sizecur - len
      (0, value, { s.setInfo tag { i with sizecur := cur } with env := s.env.subVar name })
    else (0, value, s)
  | none => (1, [], s)

/-- `weight` -/
def CtxtInfo.weight (i : CtxtInfo) : ℕ := i.sizecur * 65536 / i.sizemax

/-- The oldest item is removed: `ctxtGet(1, tag, ++info->c_nummin, 0)`. -/
def evictItem (tag : Tag) (s : State) : State :=
  let i := s.info tag
  (ctxtGet true tag (i.nummin + 1) false true
    (s.setInfo tag { i with nummin := i.nummin + 1 })).2.2

/-- Nothing of the tag can be removed. -/
def CtxtInfo.inRange (i : CtxtInfo) : Bool := i.sizecur ≤ i.sizemax || i.nummin ≥ i.nummax

/-- The loop that makes room, with whether `hinfo` and `dinfo` are still there. -/
def makeRoom (newlen : ℤ) : ℕ → Bool → Bool → State → Bool × State
  | 0, _, _, s => (false, s)
  | fuel + 1, hinfo, dinfo, s =>
    if (s.env.freeCount : ℤ) < newlen then
      let hinfo := hinfo && !(s.info .history).inRange
      let dinfo := dinfo && !(s.info .dirstack).inRange
      if hinfo && dinfo then
        if (s.info .history).weight < (s.info .dirstack).weight then
          makeRoom newlen fuel hinfo dinfo (evictItem .dirstack s)
        else makeRoom newlen fuel hinfo dinfo (evictItem .history s)
      else if dinfo then makeRoom newlen fuel hinfo dinfo (evictItem .dirstack s)
      else if hinfo then makeRoom newlen fuel hinfo dinfo (evictItem .history s)
      else (false, s)
    else (true, s)

/-- The number of items that the loop can remove. -/
def State.removable (s : State) : ℕ :=
  ((s.info .history).nummax - (s.info .history).nummin) +
    ((s.info .dirstack).nummax - (s.info .dirstack).nummin)

/-- `newlen`: how much longer the variables become. -/
def newlen (env : Env) (name : Str) (value : Option Str) : ℤ :=
  let len := match value with
    | some value => int16 (name.length + value.length + 2)
    | none => 0
  match env.findVar name with
  | some old => int16 (len - envVarlen (name, old))
  | none => len

/-- The end of `chgCtxt`. -/
def changeVar (tag : Tag) (name : Str) (value : Option Str) (new : ℤ) (s : State) : ℕ × State :=
  match envChange s.env name value with
  | (0, _) => (eNoMem, s)
  | (_, env) =>
    let i := s.info tag
    (0, { s.setInfo tag { i with sizecur := ((i.sizecur + new) % 65536).toNat } with env := env })

/-- `chgCtxt` -/
def chgCtxt (tag : Tag) (name : Str) (value : Option Str) (s : State) : ℕ × State :=
  let new := newlen s.env name value
  if 0 < new then
    let i := s.info .alias
    if tag = .alias ∧ ((i.sizemax : ℤ) - i.sizecur) % 65536 < new then (eNoMem, s)
    else
      let (room, s) := makeRoom new (s.removable + 1) true true s
      if room then changeVar tag name value new s else (eNoMem, s)
  else changeVar tag name value new s

/-- `ctxtSet` -/
def ctxtSet (tag : Tag) (num : ℕ) (value : Str) (s : State) : ℕ × State :=
  let (rc, s) := chgCtxt tag (ctxtMkItemName tag num) (some value) s
  if rc = 0 then
    let i := s.info tag
    (rc, s.setInfo tag { i with nummin := min i.nummin num, nummax := max i.nummax num })
  else (rc, s)

/-- `realNum` -/
def realNum (tag : Tag) (num : ℤ) (s : State) : ℕ :=
  let info := s.info tag
  if num = 0 then (info.nummax + 1) % 65536
  else if num < 0 then
    let i := int16 (info.nummax + 1 + num)
    if i > int16 info.nummin then (i % 65536).toNat else 65535
  else num.toNat

/-- `histSet` -/
def histSet (num : ℤ) (str : Str) (s : State) : ℕ × State :=
  ctxtSet .history (realNum .history num s) str s

/-- `histGet`: what is in a buffer of `len` bytes. -/
def histGet (num : ℤ) (len : ℕ) (ok : Bool) (s : State) : Option Str :=
  match ctxtGet false .history (realNum .history num s) true ok s with
  | (0, p, _) => some (p.take (len - 1))
  | _ => none

/-- `ctxtClear` -/
def ctxtClear (tag : Tag) (s : State) : State :=
  let i := s.info tag
  { s.setInfo tag { i with sizecur := 0, nummax := 0, nummin := 0 } with
    env := { s.env with vars := s.env.vars.filter (!ctxtProbeItemTag tag ·) } }

/-- The callback `renumber`, for all variables, and the number of the last one. -/
def renumber (tag : Tag) : ℕ → List Var → List Var × ℕ
  | n, [] => ([], n)
  | n, v :: vs =>
    if ctxtProbeItemTag tag v then
      let buf := ctxtMkItemName tag (n + 1)
      let (rest, m) := renumber tag (n + 1) vs
      ((buf ++ v.1.drop buf.length, v.2) :: rest, m)
    else
      let (rest, m) := renumber tag n vs
      (v :: rest, m)

/-- `ctxtRenumberItems` -/
def ctxtRenumberItems (tag : Tag) (s : State) : State :=
  let (vars, nummax) := renumber tag 0 s.env.vars
  { s.setInfo tag { s.info tag with nummin := 0, nummax := nummax } with
    env := { s.env with vars := vars } }

/-- `ctxtPush` -/
def ctxtPush (tag : Tag) (buf : Str) (s : State) : ℕ × State :=
  let set (s : State) :=
    let (rc, s) := ctxtSet tag ((s.info tag).nummax + 1) buf s
    (if rc = 0 then 0 else eNoMem, s)
  if (s.info tag).nummax = 65535 then
    let s := ctxtRenumberItems tag s
    if (s.info tag).nummax = 65535 then (eNoItems, s) else set s
  else set s

/-- The loop of `ctxtPop`, which counts `nummax` down. -/
def popLoop (tag : Tag) (ok : Bool) : ℕ → State → Option Str × State
  | 0, s => (none, ctxtClear tag s)
  | n + 1, s =>
    let i := s.info tag
    if i.nummin < n + 1 then
      match ctxtGet true tag (n + 1) true ok (s.setInfo tag { i with nummax := n }) with
      | (0, buf, s) => (some buf, s)
      | (1, _, s) => popLoop tag ok n s
      | (_, _, s) => (none, s)
    else (none, ctxtClear tag s)

/-- `ctxtPop` -/
def ctxtPop (tag : Tag) (ok : Bool) (s : State) : Option Str × State :=
  popLoop tag ok (s.info tag).nummax s

/-- `ctxtAddStatus` -/
def ctxtAddStatus (tag : Tag) (s : State) : ℕ × State :=
  let max := (s.info tag).sizemax ||| 0x8001
  ctxtSet tag 0 [UInt8.ofNat (max % 256), UInt8.ofNat (max / 256)] s

/-- The statuses of tags, one after the other; `none` is a fatal error. -/
def addStatuses : List Tag → State → Option State
  | [], s => some s
  | tag :: tags, s =>
    let (rc, s) := ctxtAddStatus tag s
    if rc = 0 then addStatuses tags s else none

/-- `ctxtCreate`, with the length of the block and the limits that have been set. -/
def ctxtCreate (length : ℕ) (sizemax : Tag → ℕ) : Option State :=
  addStatuses [.batch, .alias, .history, .dirstack]
    ⟨⟨[], length⟩, fun tag => ⟨sizemax tag, 0, 0, 0⟩⟩

/-! ## Runs -/

/-- What is done: a line is added to the history, a directory is pushed, one is popped, and the
`k`-th most recent line is retrieved; the last two with whether there is memory for the copy. -/
inductive Event
  | add (line : Str)
  | push (dir : Str)
  | pop (ok : Bool)
  | get (k len : ℕ) (ok : Bool)

/-- The return value, and what is returned in a buffer. -/
structure Outcome where
  ret : ℕ
  buf : Option Str

def State.step (s : State) : Event → Outcome × State
  | .add line => let (rc, s) := histSet 0 line s; (⟨rc, none⟩, s)
  | .push dir => let (rc, s) := ctxtPush .dirstack dir s; (⟨rc, none⟩, s)
  | .pop ok => let (dir, s) := ctxtPop .dirstack ok s; (⟨0, dir⟩, s)
  | .get k len ok => (⟨0, histGet (-k) len ok s⟩, s)

/-- What has been added, and what has been pushed and not been popped. -/
structure Log where
  added : List Str
  stack : List Str

def Log.note (log : Log) : Event → Outcome → Log
  | .add line, out => if out.ret = 0 then { log with added := log.added ++ [line] } else log
  | .push dir, out => if out.ret = 0 then { log with stack := log.stack ++ [dir] } else log
  | .pop _, out => if out.buf.isSome then { log with stack := log.stack.dropLast } else log
  | .get _ _ _, _ => log

/-- A step, with what is to be remembered of it. -/
def logStep (s : State × Log) (e : Event) : State × Log :=
  ((s.1.step e).2, s.2.note e (s.1.step e).1)

/-- The values of the items of a tag, in their order. -/
def State.items (s : State) (tag : Tag) : List Str :=
  (s.env.vars.filter (ctxtProbeItemTag tag)).map Prod.snd

/-- A variable of a tag: an item or the status. -/
def ofTag (tag : Tag) (v : Var) : Bool := v.1.head? == some tag.code

/-- What the variables of a tag occupy. -/
def State.tagBytes (s : State) (tag : Tag) : ℕ := bytes (s.env.vars.filter (ofTag tag))

/-! ## Names -/

/-- The items from number `n` on. -/
def mkItems (tag : Tag) : ℕ → List Str → List Var
  | _, [] => []
  | n, value :: values => (ctxtMkItemName tag n, value) :: mkItems tag (n + 1) values

variable {tag tag' : Tag} {s s' : State} {values values' : List Str} {value : Str} {m n : ℕ}
  {vars : List Var} {v : Var}

theorem Tag.code_inj (h : tag.code = tag'.code) : tag = tag' := by
  cases tag <;> cases tag' <;> first | rfl | exact absurd h (by decide)

theorem hexDigit_inj : ∀ a < 16, ∀ b < 16, hexDigit a = hexDigit b → a = b := by decide

theorem hexDigit_ne : ∀ a < 16, hexDigit a ≠ 61 := by decide

theorem head_ctxtMkItemName (tag : Tag) (n : ℕ) :
    (ctxtMkItemName tag n).head? = some tag.code := by
  rw [ctxtMkItemName]
  split <;> rfl

theorem length_ctxtMkItemName (tag : Tag) (hn : 0 < n) : (ctxtMkItemName tag n).length = 5 := by
  rw [ctxtMkItemName, if_pos hn.ne']
  rfl

theorem ctxtMkItemName_inj (hm : 0 < m) (hm' : m ≤ 65535) (hn : 0 < n) (hn' : n ≤ 65535)
    (h : ctxtMkItemName tag m = ctxtMkItemName tag n) : m = n := by
  rw [ctxtMkItemName, ctxtMkItemName, if_pos hm.ne', if_pos hn.ne'] at h
  simp only [List.cons.injEq, and_true, true_and] at h
  obtain ⟨h₁, h₂, h₃, h₄⟩ := h
  have e₁ := hexDigit_inj _ (Nat.mod_lt _ (by decide)) _ (Nat.mod_lt _ (by decide)) h₁
  have e₂ := hexDigit_inj _ (Nat.mod_lt _ (by decide)) _ (Nat.mod_lt _ (by decide)) h₂
  have e₃ := hexDigit_inj _ (Nat.mod_lt _ (by decide)) _ (Nat.mod_lt _ (by decide)) h₃
  have e₄ := hexDigit_inj _ (Nat.mod_lt _ (by decide)) _ (Nat.mod_lt _ (by decide)) h₄
  omega

/-- A variable with the name of an item is one. -/
theorem probe_of_name (hn : 0 < n) (h : v.1 = ctxtMkItemName tag n) :
    ctxtProbeItemTag tag v = true := by
  rw [ctxtMkItemName, if_pos hn.ne'] at h
  have hdigit := hexDigit_ne (n / 4096 % 16) (Nat.mod_lt _ (by decide))
  rw [ctxtProbeItemTag, h]
  simp [hdigit]

theorem ofTag_of_probe (h : ctxtProbeItemTag tag v = true) : ofTag tag v = true := by
  obtain ⟨name, value⟩ := v
  rcases name with - | ⟨c, - | ⟨d, name⟩⟩
  · cases h
  · cases h
  · simp only [ctxtProbeItemTag, Bool.and_eq_true, beq_iff_eq] at h
    simp [ofTag, h.1]

theorem ofTag_name (tag' : Tag) (h : v.1 = ctxtMkItemName tag n) :
    ofTag tag' v = decide (tag' = tag) := by
  rw [ofTag, h, head_ctxtMkItemName]
  by_cases htag : tag' = tag
  · simp [htag]
  · have hcode : tag.code ≠ tag'.code := fun hcode => htag (Tag.code_inj hcode).symm
    simp [htag, hcode]

/-! ## Items -/

theorem mkItems_append (tag : Tag) (n : ℕ) (values values' : List Str) :
    mkItems tag n (values ++ values') =
      mkItems tag n values ++ mkItems tag (n + values.length) values' := by
  induction values generalizing n with
  | nil => rfl
  | cons value values ih =>
    rw [List.cons_append, mkItems, mkItems, ih, List.cons_append, List.length_cons,
      Nat.add_right_comm, Nat.add_assoc]

theorem map_snd_mkItems (tag : Tag) (n : ℕ) (values : List Str) :
    (mkItems tag n values).map Prod.snd = values := by
  induction values generalizing n with
  | nil => rfl
  | cons value values ih => rw [mkItems, List.map_cons, ih]

theorem mem_mkItems (h : v ∈ mkItems tag m values) :
    ∃ n, m ≤ n ∧ n < m + values.length ∧ v.1 = ctxtMkItemName tag n := by
  induction values generalizing m with
  | nil => exact absurd h List.not_mem_nil
  | cons value values ih =>
    rw [List.length_cons]
    rcases List.mem_cons.mp h with rfl | h
    · exact ⟨m, Nat.le_refl m, by omega, rfl⟩
    · obtain ⟨n, hle, hlt, hname⟩ := ih h
      exact ⟨n, by omega, by omega, hname⟩

/-- An item is found by its number. -/
theorem find_mkItems (hm : 0 < m) (hlen : m + values.length ≤ 65536) (hn : 0 < n)
    (hn' : n ≤ 65535) :
    ((mkItems tag m values).find? (·.1 == ctxtMkItemName tag n)).map Prod.snd =
      if m ≤ n then values[n - m]? else none := by
  induction values generalizing m with
  | nil => simp [mkItems]
  | cons value values ih =>
    rw [List.length_cons] at hlen
    rw [mkItems]
    rcases eq_or_ne m n with rfl | hne
    · rw [List.find?_cons_of_pos (by simp), if_pos (Nat.le_refl m), Nat.sub_self]
      rfl
    · have hname : ctxtMkItemName tag m ≠ ctxtMkItemName tag n :=
        fun h => hne (ctxtMkItemName_inj hm (by omega) hn hn' h)
      rw [List.find?_cons_of_neg (by simpa using hname), ih (Nat.succ_pos m) (by omega)]
      by_cases hle : m ≤ n
      · rw [if_pos hle, if_pos (by omega), ← Nat.succ_sub_succ n m, Nat.succ_sub (by omega),
          List.getElem?_cons_succ]
      · rw [if_neg hle, if_neg (by omega)]

/-- One item is taken away. -/
theorem filter_mkItems (hm : 0 < m) (hlen : m + (values ++ value :: values').length ≤ 65536) :
    (mkItems tag m (values ++ value :: values')).filter
        (·.1 != ctxtMkItemName tag (m + values.length)) =
      mkItems tag m values ++ mkItems tag (m + values.length + 1) values' := by
  rw [List.length_append, List.length_cons] at hlen
  rw [mkItems_append, List.filter_append, mkItems, List.filter_cons_of_neg (by simp)]
  congr 1
  · refine List.filter_eq_self.mpr fun v hv => ?_
    obtain ⟨n, hle, hlt, hname⟩ := mem_mkItems hv
    rw [hname, bne_iff_ne]
    intro h
    have heq := ctxtMkItemName_inj (by omega) (by omega) (by omega) (by omega) h
    omega
  · refine List.filter_eq_self.mpr fun v hv => ?_
    obtain ⟨n, hle, hlt, hname⟩ := mem_mkItems hv
    rw [hname, bne_iff_ne]
    intro h
    have heq := ctxtMkItemName_inj (by omega) (by omega) (by omega) (by omega) h
    omega

/-! ## Lengths -/

theorem bytes_append (vars vars' : List Var) :
    bytes (vars ++ vars') = bytes vars + bytes vars' := by
  rw [bytes, List.map_append, List.sum_append]
  rfl

theorem bytes_cons (v : Var) (vars : List Var) : bytes (v :: vars) = envVarlen v + bytes vars := by
  rw [bytes, List.map_cons, List.sum_cons]
  rfl

theorem bytes_filter_add (p : Var → Bool) (vars : List Var) :
    bytes (vars.filter p) + bytes (vars.filter (!p ·)) = bytes vars := by
  induction vars with
  | nil => rfl
  | cons v vars ih =>
    cases hp : p v
    · rw [List.filter_cons_of_neg (by simp [hp]), List.filter_cons_of_pos (by simp [hp]),
        bytes_cons, bytes_cons]
      omega
    · rw [List.filter_cons_of_pos hp, List.filter_cons_of_neg (by simp [hp]), bytes_cons,
        bytes_cons]
      omega

theorem bytes_filter_le (p : Var → Bool) (vars : List Var) :
    bytes (vars.filter p) ≤ bytes vars := by
  have hadd := bytes_filter_add p vars
  omega

/-- The variables of a tag are its items and its status. -/
theorem bytes_ofTag (tag : Tag) (vars : List Var) :
    bytes (vars.filter (ofTag tag)) = bytes (vars.filter (ctxtProbeItemTag tag)) +
      bytes (vars.filter fun v => ofTag tag v && !ctxtProbeItemTag tag v) := by
  have hadd := bytes_filter_add (ctxtProbeItemTag tag) (vars.filter (ofTag tag))
  rw [List.filter_filter, List.filter_filter] at hadd
  rw [← hadd]
  congr 2
  · refine List.filter_congr fun v _ => ?_
    cases hp : ctxtProbeItemTag tag v
    · rfl
    · rw [ofTag_of_probe hp]
      rfl
  · refine List.filter_congr fun v _ => ?_
    rw [Bool.and_comm]

/-! ## Queues -/

/-- The items of a tag are the numbers between the counters, each in its place, and `sizecur` is the
length of what the tag has. -/
structure Queue (tag : Tag) (s : State) (values : List Str) : Prop where
  items : s.env.vars.filter (ctxtProbeItemTag tag) = mkItems tag ((s.info tag).nummin + 1) values
  nummax : (s.info tag).nummax = (s.info tag).nummin + values.length
  bound : (s.info tag).nummax ≤ 65535
  sizecur : (s.info tag).sizecur = s.tagBytes tag

/-- The variables are in the segment. -/
structure Room (s : State) : Prop where
  fits : bytes s.env.vars + 3 ≤ s.env.length
  length : s.env.length ≤ 65535

/-- Nothing has happened to the other tags. -/
structure Aside (tag : Tag) (s s' : State) : Prop where
  vars : ∀ tag' ≠ tag, s'.env.vars.filter (ofTag tag') = s.env.vars.filter (ofTag tag')
  info : ∀ tag' ≠ tag, s'.info tag' = s.info tag'
  room : Room s → Room s'

theorem Aside.trans {s'' : State} (h : Aside tag s s') (h' : Aside tag s' s'') :
    Aside tag s s'' where
  vars tag' hne := (h'.vars tag' hne).trans (h.vars tag' hne)
  info tag' hne := (h'.info tag' hne).trans (h.info tag' hne)
  room := h'.room ∘ h.room

theorem setInfo_self (s : State) (tag : Tag) (i : CtxtInfo) : (s.setInfo tag i).info tag = i := by
  rw [State.setInfo]
  exact Function.update_self tag i s.info

theorem setInfo_of_ne (s : State) (i : CtxtInfo) (h : tag' ≠ tag) :
    (s.setInfo tag i).info tag' = s.info tag' := by
  rw [State.setInfo]
  exact Function.update_of_ne h i s.info

/-- How the segment and the limit of a tag change. -/
structure Grows (tag : Tag) (s s' : State) (old new : ℕ) : Prop where
  bytes : bytes s'.env.vars + old = bytes s.env.vars + new
  length : s'.env.length = s.env.length
  sizemax : (s'.info tag).sizemax = (s.info tag).sizemax

theorem aside_setInfo (tag : Tag) (s : State) (i : CtxtInfo) : Aside tag s (s.setInfo tag i) where
  vars _ _ := rfl
  info _ hne := setInfo_of_ne s i hne
  room h := ⟨h.fits, h.length⟩

theorem Queue.values_eq (h : Queue tag s values) : s.items tag = values := by
  rw [State.items, h.items, map_snd_mkItems]

theorem Queue.aside (h : Queue tag' s values) (hne : tag' ≠ tag) (haside : Aside tag s s') :
    Queue tag' s' values := by
  have hvars := haside.vars tag' hne
  have hinfo := haside.info tag' hne
  have hitems : ∀ vars : List Var, vars.filter (ctxtProbeItemTag tag') =
      (vars.filter (ofTag tag')).filter (ctxtProbeItemTag tag') := by
    intro vars
    rw [List.filter_filter]
    refine List.filter_congr fun v _ => ?_
    cases hp : ctxtProbeItemTag tag' v
    · rfl
    · rw [ofTag_of_probe hp]
      rfl
  refine ⟨?_, hinfo ▸ h.nummax, hinfo ▸ h.bound, ?_⟩
  · rw [hitems, hvars, ← hitems, hinfo, h.items]
  · rw [hinfo, h.sizecur, State.tagBytes, State.tagBytes, hvars]

/-- The items are the only variables with their names. -/
theorem findVar_item (env : Env) (hn : 0 < n) :
    env.findVar (ctxtMkItemName tag n) = ((env.vars.filter (ctxtProbeItemTag tag)).find?
      (·.1 == ctxtMkItemName tag n)).map Prod.snd := by
  rw [Env.findVar, List.find?_filter]
  congr 2
  funext v
  by_cases hv : v.1 = ctxtMkItemName tag n
  · rw [probe_of_name hn hv, hv]
    simp
  · have hno : (v.1 == ctxtMkItemName tag n) = false := by simpa using hv
    simp [hno]

theorem Queue.find (h : Queue tag s values) (hn : 0 < n) (hn' : n ≤ 65535) :
    s.env.findVar (ctxtMkItemName tag n) =
      if (s.info tag).nummin < n then values[n - ((s.info tag).nummin + 1)]? else none := by
  have hbound := h.bound
  rw [h.nummax] at hbound
  rw [findVar_item s.env hn, h.items, find_mkItems (Nat.succ_pos _) (by omega) hn hn']
  rfl

/-- An item is taken out of a list of variables. -/
theorem filter_name_ofTag (tag' : Tag) (hne : tag' ≠ tag) (vars : List Var) (n : ℕ) :
    (vars.filter (·.1 != ctxtMkItemName tag n)).filter (ofTag tag') = vars.filter (ofTag tag') := by
  rw [List.filter_filter]
  refine List.filter_congr fun v _ => ?_
  by_cases hv : v.1 = ctxtMkItemName tag n
  · rw [ofTag_name tag' hv, decide_eq_false hne]
    rfl
  · simp [hv]

/-- The variables of a tag that are not items have other names. -/
theorem filter_name_status (hn : 0 < n) (vars : List Var) :
    (vars.filter (·.1 != ctxtMkItemName tag n)).filter
        (fun v => ofTag tag v && !ctxtProbeItemTag tag v) =
      vars.filter fun v => ofTag tag v && !ctxtProbeItemTag tag v := by
  rw [List.filter_filter]
  refine List.filter_congr fun v _ => ?_
  by_cases hv : v.1 = ctxtMkItemName tag n
  · rw [probe_of_name hn hv]
    simp
  · simp [hv]

theorem filter_name_others (hn : 0 < n) (vars : List Var) :
    (vars.filter (·.1 != ctxtMkItemName tag n)).filter (!ctxtProbeItemTag tag ·) =
      vars.filter (!ctxtProbeItemTag tag ·) := by
  rw [List.filter_filter]
  refine List.filter_congr fun v _ => ?_
  by_cases hv : v.1 = ctxtMkItemName tag n
  · rw [probe_of_name hn hv]
    simp
  · simp [hv]

/-- An item is removed. -/
theorem ctxtGet_remove (buf : Bool) (hm : 0 < m)
    (hlen : m + (values ++ value :: values').length ≤ 65536)
    (hitems : s.env.vars.filter (ctxtProbeItemTag tag) = mkItems tag m (values ++ value :: values'))
    (hsize : (s.info tag).sizecur = s.tagBytes tag) :
    ∃ s', ctxtGet true tag (m + values.length) buf true s = (0, value, s') ∧ Aside tag s s' ∧
      s'.env.vars.filter (ctxtProbeItemTag tag) =
        mkItems tag m values ++ mkItems tag (m + values.length + 1) values' ∧
      (s'.info tag).sizecur = s'.tagBytes tag ∧ (s'.info tag).nummin = (s.info tag).nummin ∧
      (s'.info tag).nummax = (s.info tag).nummax ∧ Grows tag s s' (value.length + 7) 0 := by
  have hlen' := hlen
  rw [List.length_append, List.length_cons] at hlen'
  have hfind : s.env.findVar (ctxtMkItemName tag (m + values.length)) = some value := by
    rw [findVar_item _ (by omega), hitems, find_mkItems hm hlen (by omega) (by omega),
      if_pos (Nat.le_add_right _ _), Nat.add_sub_cancel_left]
    simp
  have hrest : (s.env.subVar (ctxtMkItemName tag (m + values.length))).vars.filter
      (ctxtProbeItemTag tag) =
        mkItems tag m values ++ mkItems tag (m + values.length + 1) values' := by
    rw [Env.subVar, List.filter_filter, ← filter_mkItems hm hlen, ← hitems, List.filter_filter]
    exact List.filter_congr fun v _ => Bool.and_comm _ _
  have hbytes : (s.info tag).sizecur =
      bytes ((s.env.subVar (ctxtMkItemName tag (m + values.length))).vars.filter (ofTag tag)) +
        envVarlen (ctxtMkItemName tag (m + values.length), value) := by
    rw [hsize, State.tagBytes, bytes_ofTag, bytes_ofTag, hitems, hrest, mkItems_append,
      bytes_append, bytes_append, mkItems, bytes_cons, Env.subVar, filter_name_status (by omega)]
    omega
  have hfive := length_ctxtMkItemName tag (show 0 < m + values.length by omega)
  -- the variables that are not items of the tag stay
  have hall : bytes (s.env.subVar (ctxtMkItemName tag (m + values.length))).vars +
      envVarlen (ctxtMkItemName tag (m + values.length), value) = bytes s.env.vars := by
    have hsplit := bytes_filter_add (ctxtProbeItemTag tag) s.env.vars
    have hsplit' := bytes_filter_add (ctxtProbeItemTag tag)
      (s.env.subVar (ctxtMkItemName tag (m + values.length))).vars
    rw [hrest, bytes_append, Env.subVar, filter_name_others (by omega)] at hsplit'
    rw [hitems, mkItems_append, bytes_append, mkItems, bytes_cons] at hsplit
    rw [Env.subVar]
    omega
  have hroom : Room s →
      Room { s with env := s.env.subVar (ctxtMkItemName tag (m + values.length)) } := by
    intro h
    have hfits := h.fits
    refine ⟨?_, h.length⟩
    have hle := bytes_filter_le (·.1 != ctxtMkItemName tag (m + values.length)) s.env.vars
    exact show bytes (s.env.vars.filter _) + 3 ≤ s.env.length by omega
  refine ⟨_, by rw [ctxtGet, hfind]; dsimp only; rw [if_neg (by simp), if_pos rfl], ⟨?_, ?_, ?_⟩,
    hrest, ?_, ?_, ?_, ?_, ?_, ?_⟩
  · exact fun tag' hne => filter_name_ofTag tag' hne s.env.vars _
  · exact fun tag' hne => setInfo_of_ne s _ hne
  · exact fun h => ⟨(hroom h).fits, (hroom h).length⟩
  · dsimp only [State.tagBytes]
    rw [setInfo_self, hbytes, if_neg (by omega), Nat.add_sub_cancel]
  · rw [setInfo_self]
  · rw [setInfo_self]
  · rw [envVarlen] at hall
    dsimp only at hall ⊢
    rw [hfive] at hall
    omega
  · rfl
  · rw [setInfo_self]

/-- The oldest item is removed. -/
theorem Queue.evictItem (h : Queue tag s (value :: values)) :
    Queue tag (evictItem tag s) values ∧ Aside tag s (evictItem tag s) ∧
      ((Ctxt.evictItem tag s).info tag).nummax = (s.info tag).nummax ∧
      Grows tag s (Ctxt.evictItem tag s) (value.length + 7) 0 := by
  have hmax := h.nummax
  have hbound := h.bound
  rw [List.length_cons] at hmax
  have hself := setInfo_self s tag
    { s.info tag with nummin := (s.info tag).nummin + 1 }
  obtain ⟨s', hget, haside, hitems, hsize, hmin, hmax', hgrows⟩ := @ctxtGet_remove tag
    (s.setInfo tag { s.info tag with nummin := (s.info tag).nummin + 1 }) [] values value
    ((s.info tag).nummin + 1) false (Nat.succ_pos _)
    (by rw [List.nil_append, List.length_cons]; omega) h.items (by rw [hself]; exact h.sizecur)
  rw [hself] at hmin hmax'
  have hevict : Ctxt.evictItem tag s = s' := by
    rw [Ctxt.evictItem]
    exact congrArg (·.2.2) hget
  rw [hevict]
  refine ⟨⟨?_, ?_, ?_, hsize⟩, (aside_setInfo tag s _).trans haside, hmax', hgrows.bytes,
    hgrows.length, hgrows.sizemax.trans (by rw [hself])⟩
  · rw [hitems, hmin]
    rfl
  · rw [hmax', hmin]
    exact show (s.info tag).nummax = (s.info tag).nummin + 1 + values.length by omega
  · rw [hmax']
    exact hbound

/-- The last item is removed. -/
theorem Queue.pop (h : Queue tag s (values ++ [value])) :
    ∃ s', ctxtGet true tag (s.info tag).nummax true true
        (s.setInfo tag { s.info tag with nummax := (s.info tag).nummax - 1 }) = (0, value, s') ∧
      Queue tag s' values ∧ Aside tag s s' := by
  have hmax := h.nummax
  have hbound := h.bound
  rw [List.length_append, List.length_singleton] at hmax
  have hself := setInfo_self s tag { s.info tag with nummax := (s.info tag).nummax - 1 }
  obtain ⟨s', hget, haside, hitems, hsize, hmin, hmax', -⟩ := @ctxtGet_remove tag
    (s.setInfo tag { s.info tag with nummax := (s.info tag).nummax - 1 }) values [] value
    ((s.info tag).nummin + 1) true (Nat.succ_pos _)
    (by rw [List.length_append, List.length_singleton]; omega) h.items
    (by rw [hself]; exact h.sizecur)
  rw [hself] at hmin hmax'
  refine ⟨s', ?_, ⟨?_, ?_, ?_, hsize⟩, (aside_setInfo tag s _).trans haside⟩
  · rw [show (s.info tag).nummin + 1 + values.length = (s.info tag).nummax by omega] at hget
    exact hget
  · rw [hitems, hmin, mkItems, List.append_nil]
  · rw [hmax', hmin]
    exact show (s.info tag).nummax - 1 = (s.info tag).nummin + values.length by omega
  · rw [hmax']
    exact show (s.info tag).nummax - 1 ≤ 65535 by omega

/-! ## Making room -/

/-- The tags that are queues. -/
def IsQueue (tag : Tag) : Prop := tag = .history ∨ tag = .dirstack

/-- The values of the two queues. -/
structure Held (s : State) (values : Tag → List Str) : Prop where
  queue : ∀ tag, IsQueue tag → Queue tag s (values tag)
  room : Room s

variable {H : Tag → List Str}

/-- The oldest items have been removed, maybe. -/
def Evicted (H : Tag → List Str) (s s' : State) : Prop :=
  ∃ H', Held s' H' ∧ (∀ tag, IsQueue tag → H' tag <:+ H tag) ∧
    ∀ tag, IsQueue tag → (s'.info tag).nummax = (s.info tag).nummax

theorem Held.evicted (h : Held s H) : Evicted H s s :=
  ⟨H, h, fun _ _ => List.suffix_rfl, fun _ _ => rfl⟩

/-- One item is removed from a queue that is not empty. -/
theorem Held.evictItem (h : Held s H) (htag : IsQueue tag)
    (hrange : (s.info tag).inRange = false) :
    ∃ H', Held (evictItem tag s) H' ∧ (∀ tag', IsQueue tag' → H' tag' <:+ H tag') ∧
      ∀ tag', IsQueue tag' → ((Ctxt.evictItem tag s).info tag').nummax = (s.info tag').nummax := by
  have hq := h.queue tag htag
  have hlt : (s.info tag).nummin < (s.info tag).nummax := by
    rw [CtxtInfo.inRange, Bool.or_eq_false_iff, decide_eq_false_iff_not, decide_eq_false_iff_not]
      at hrange
    omega
  rcases hvalues : H tag with - | ⟨value, rest⟩
  · have hmax := hq.nummax
    rw [hvalues, List.length_nil] at hmax
    omega
  · rw [hvalues] at hq
    obtain ⟨hq', haside, hmax, -⟩ := hq.evictItem
    refine ⟨Function.update H tag rest, ⟨fun tag' htag' => ?_, haside.room h.room⟩,
      fun tag' _ => ?_, fun tag' _ => ?_⟩
    · rcases eq_or_ne tag' tag with rfl | hne
      · rwa [Function.update_self]
      · rw [Function.update_of_ne hne]
        exact (h.queue tag' htag').aside hne haside
    · rcases eq_or_ne tag' tag with rfl | hne
      · rw [Function.update_self, hvalues]
        exact List.suffix_cons value rest
      · rw [Function.update_of_ne hne]
    · rcases eq_or_ne tag' tag with rfl | hne
      · exact hmax
      · rw [haside.info tag' hne]

/-- What the loop does: the oldest items go. -/
theorem makeRoom_evicted {new : ℤ} : ∀ {fuel : ℕ} {hinfo dinfo : Bool} {s : State}
    {H : Tag → List Str}, Held s H → Evicted H s (makeRoom new fuel hinfo dinfo s).2 := by
  intro fuel
  induction fuel with
  | zero => exact fun h => h.evicted
  | succ fuel ih =>
    intro hinfo dinfo s H h
    -- one turn, for one of the queues
    have hturn : ∀ {tag hinfo dinfo}, IsQueue tag → (s.info tag).inRange = false →
        Evicted H s (makeRoom new fuel hinfo dinfo (Ctxt.evictItem tag s)).2 := by
      intro tag hinfo dinfo htag hrange
      obtain ⟨H₁, h₁, hsuf₁, hmax₁⟩ := h.evictItem htag hrange
      obtain ⟨H₂, h₂, hsuf₂, hmax₂⟩ := ih h₁
      exact ⟨H₂, h₂, fun tag' htag' => (hsuf₂ tag' htag').trans (hsuf₁ tag' htag'),
        fun tag' htag' => (hmax₂ tag' htag').trans (hmax₁ tag' htag')⟩
    rw [makeRoom]
    dsimp only
    split
    · split
      · rename_i hboth
        simp only [Bool.and_eq_true, Bool.not_eq_true'] at hboth
        split
        · exact hturn (Or.inr rfl) hboth.2.2
        · exact hturn (Or.inl rfl) hboth.1.2
      · split
        · rename_i hd
          simp only [Bool.and_eq_true, Bool.not_eq_true'] at hd
          exact hturn (Or.inr rfl) hd.2
        · split
          · rename_i hh
            simp only [Bool.and_eq_true, Bool.not_eq_true'] at hh
            exact hturn (Or.inl rfl) hh.2
          · exact h.evicted
    · exact h.evicted

/-! ## Adding -/

theorem int16_eq {n : ℤ} (h : -32768 ≤ n) (h' : n < 32768) : int16 n = n := by
  rw [int16]
  exact Int.bmod_eq_of_le (by omega) (by omega)

/-- There is no item behind the last one. -/
theorem Queue.find_next (h : Queue tag s values) (hmax : (s.info tag).nummax < 65535) :
    s.env.findVar (ctxtMkItemName tag ((s.info tag).nummax + 1)) = none := by
  have hlen := h.nummax
  rw [h.find (Nat.succ_pos _) (by omega), if_pos (by omega)]
  exact List.getElem?_eq_none (by omega)

/-- A new item is stored behind the others, or there is no room for it. -/
theorem Queue.changeVar {new : ℤ} (h : Queue tag s values) (hroom : Room s)
    (hmax : (s.info tag).nummax < 65535)
    (hnew : new = newlen s.env (ctxtMkItemName tag ((s.info tag).nummax + 1)) (some value)) :
    Ctxt.changeVar tag (ctxtMkItemName tag ((s.info tag).nummax + 1)) (some value) new s =
        (eNoMem, s) ∧ (s.env.freeCount < value.length + 7 ∨ 32767 < value.length + 7) ∨
      ∃ s', Ctxt.changeVar tag (ctxtMkItemName tag ((s.info tag).nummax + 1)) (some value) new s =
          (0, s') ∧ Aside tag s s' ∧
        s'.env.vars.filter (ctxtProbeItemTag tag) =
          mkItems tag ((s.info tag).nummin + 1) (values ++ [value]) ∧
        (s'.info tag).sizecur = s'.tagBytes tag ∧ (s'.info tag).nummin = (s.info tag).nummin ∧
        (s'.info tag).nummax = (s.info tag).nummax ∧ Grows tag s s' 0 (value.length + 7) := by
  have hnone := h.find_next hmax
  have hlen := length_ctxtMkItemName tag (Nat.succ_pos (s.info tag).nummax)
  have hprobe : ctxtProbeItemTag tag
      (ctxtMkItemName tag ((s.info tag).nummax + 1), value) = true :=
    probe_of_name (Nat.succ_pos _) rfl
  have hother : ∀ tag' ≠ tag,
      ofTag tag' (ctxtMkItemName tag ((s.info tag).nummax + 1), value) = false := by
    intro tag' hne
    have hof := @ofTag_name tag ((s.info tag).nummax + 1)
      (ctxtMkItemName tag ((s.info tag).nummax + 1), value) tag' rfl
    rw [hof, decide_eq_false hne]
  have hvalues := h.nummax
  have hitems : mkItems tag ((s.info tag).nummin + 1) (values ++ [value]) =
      mkItems tag ((s.info tag).nummin + 1) values ++
        [(ctxtMkItemName tag ((s.info tag).nummax + 1), value)] := by
    rw [mkItems_append, hvalues, Nat.add_right_comm]
    rfl
  rw [newlen, hnone] at hnew
  dsimp only at hnew
  generalize ctxtMkItemName tag ((s.info tag).nummax + 1) = name at *
  rw [Ctxt.changeVar, envChange.eq_def, hnone]
  dsimp only
  by_cases hfull : s.env.freeCount < name.length + value.length + 2 ∨
      32767 < name.length + value.length + 2
  · rw [if_pos hfull]
    refine Or.inl ⟨rfl, hfull.imp (fun hlt => ?_) fun hlt => ?_⟩
    · omega
    · omega
  · rw [if_neg hfull]
    right
    have hbytes : bytes (s.env.vars ++ [(name, value)]) + 3 ≤ s.env.length := by
      have hfits := hroom.fits
      rw [Env.freeCount] at hfull
      rw [bytes_append, bytes_cons, envVarlen]
      exact show bytes s.env.vars + (name.length + value.length + 2 + 0) + 3 ≤ s.env.length by omega
    have htag : bytes ((s.env.vars ++ [(name, value)]).filter (ofTag tag)) =
        (s.info tag).sizecur + (name.length + value.length + 2) := by
      rw [List.filter_append, bytes_append, h.sizecur, State.tagBytes,
        List.filter_cons_of_pos (ofTag_of_probe hprobe)]
      rfl
    refine ⟨_, rfl, ⟨?_, ?_, ?_⟩, ?_, ?_, ?_, ?_, ?_, rfl, ?_⟩
    · intro tag' hne
      dsimp only
      rw [List.filter_append, List.filter_cons_of_neg (ne_true_of_eq_false (hother tag' hne)),
        List.filter_nil, List.append_nil]
    · exact fun tag' hne => setInfo_of_ne s _ hne
    · exact fun _ => ⟨hbytes, hroom.length⟩
    · dsimp only
      rw [List.filter_append, List.filter_cons_of_pos hprobe, h.items, hitems]
      rfl
    · dsimp only [State.tagBytes]
      have hle := (bytes_filter_le (ofTag tag) (s.env.vars ++ [(name, value)])).trans
        (Nat.le_of_add_right_le hbytes)
      have hlong := hroom.length
      rw [htag] at hle
      rw [setInfo_self, htag, hnew, int16_eq (by omega) (by omega)]
      exact show (((s.info tag).sizecur + ((name.length : ℤ) + value.length + 2)) % 65536).toNat =
        (s.info tag).sizecur + (name.length + value.length + 2) by omega
    · rw [setInfo_self]
    · rw [setInfo_self]
    · dsimp only
      rw [bytes_append, bytes_cons, envVarlen]
      exact show bytes s.env.vars + (name.length + value.length + 2 + 0) + 0 =
        bytes s.env.vars + (value.length + 7) by omega
    · rw [setInfo_self]

/-- `ctxtSet` after the item has been stored: the last number is the one of the new item. -/
def State.counted (s : State) (tag : Tag) (num : ℕ) : State :=
  s.setInfo tag { s.info tag with
    nummin := min (s.info tag).nummin num, nummax := max (s.info tag).nummax num }

/-- A new item is the last one of its queue, or there is no room for it. -/
theorem Held.changeVar {new : ℤ} (h : Held s H) (htag : IsQueue tag)
    (hmax : (s.info tag).nummax < 65535)
    (hnew : new = newlen s.env (ctxtMkItemName tag ((s.info tag).nummax + 1)) (some value)) :
    Ctxt.changeVar tag (ctxtMkItemName tag ((s.info tag).nummax + 1)) (some value) new s =
        (eNoMem, s) ∧ (s.env.freeCount < value.length + 7 ∨ 32767 < value.length + 7) ∨
      ∃ s', Ctxt.changeVar tag (ctxtMkItemName tag ((s.info tag).nummax + 1)) (some value) new s =
          (0, s') ∧
        Held (s'.counted tag ((s.info tag).nummax + 1))
          (Function.update H tag (H tag ++ [value])) ∧
        ((s'.counted tag ((s.info tag).nummax + 1)).info tag).nummax = (s.info tag).nummax + 1 ∧
        Grows tag s (s'.counted tag ((s.info tag).nummax + 1)) 0 (value.length + 7) := by
  have hq := h.queue tag htag
  have hvalues := hq.nummax
  rcases hq.changeVar h.room hmax hnew with hno |
    ⟨s', heq, haside, hitems, hsize, hmin', hmax', hgrows⟩
  · exact Or.inl hno
  · have haside' := haside.trans (aside_setInfo tag s' { s'.info tag with
      nummin := min (s'.info tag).nummin ((s.info tag).nummax + 1)
      nummax := max (s'.info tag).nummax ((s.info tag).nummax + 1) })
    have hmineq : min (s'.info tag).nummin ((s.info tag).nummax + 1) = (s.info tag).nummin := by
      omega
    have hmaxeq : max (s'.info tag).nummax ((s.info tag).nummax + 1) =
        (s.info tag).nummax + 1 := by
      omega
    refine Or.inr ⟨s', heq, ⟨fun tag' htag' => ?_, haside'.room h.room⟩, ?_,
      hgrows.bytes, hgrows.length, ?_⟩
    · rcases eq_or_ne tag' tag with rfl | hne
      · rw [Function.update_self, State.counted, hmineq, hmaxeq]
        refine ⟨?_, ?_, ?_, ?_⟩
        · rw [setInfo_self]
          exact hitems
        · rw [setInfo_self, List.length_append, List.length_singleton]
          exact show (s.info tag').nummax + 1 =
            (s.info tag').nummin + ((H tag').length + 1) by omega
        · rw [setInfo_self]
          exact hmax
        · rw [setInfo_self]
          exact hsize
      · rw [Function.update_of_ne hne]
        exact (h.queue tag' htag').aside hne haside'
    · rw [State.counted, setInfo_self]
      exact hmaxeq
    · rw [State.counted, setInfo_self]
      exact hgrows.sizemax

/-- A new item is added to a queue, or the oldest items have been removed in vain. -/
theorem ctxtSet_next (h : Held s H) (htag : IsQueue tag) (hmax : (s.info tag).nummax < 65535)
    (value : Str) :
    (ctxtSet tag ((s.info tag).nummax + 1) value s).1 = eNoMem ∧
        Evicted H s (ctxtSet tag ((s.info tag).nummax + 1) value s).2 ∨
      (ctxtSet tag ((s.info tag).nummax + 1) value s).1 = 0 ∧
        ∃ H', (∀ tag', IsQueue tag' → H' tag' <:+ H tag') ∧
          Held (ctxtSet tag ((s.info tag).nummax + 1) value s).2
            (Function.update H' tag (H' tag ++ [value])) := by
  have halias : tag ≠ .alias := by
    rcases htag with rfl | rfl <;> decide
  have hnone := (h.queue tag htag).find_next hmax
  -- what happens when there may be room
  have hlast : ∀ s₁, Evicted H s s₁ → ∀ rc s₂,
      changeVar tag (ctxtMkItemName tag ((s.info tag).nummax + 1)) (some value)
        (newlen s.env (ctxtMkItemName tag ((s.info tag).nummax + 1)) (some value)) s₁ = (rc, s₂) →
      rc = eNoMem ∧ Evicted H s s₂ ∨
        rc = 0 ∧ ∃ H', (∀ tag', IsQueue tag' → H' tag' <:+ H tag') ∧
          Held (s₂.counted tag ((s.info tag).nummax + 1))
            (Function.update H' tag (H' tag ++ [value])) := by
    rintro s₁ ⟨H₁, h₁, hsuf, hmax₁⟩ rc s₂ hchange
    have hnone₁ := (h₁.queue tag htag).find_next (by rw [hmax₁ tag htag]; exact hmax)
    have hnew : newlen s.env (ctxtMkItemName tag ((s.info tag).nummax + 1)) (some value) =
        newlen s₁.env (ctxtMkItemName tag ((s₁.info tag).nummax + 1)) (some value) := by
      rw [newlen, newlen, hnone, hnone₁, hmax₁ tag htag]
    rw [← hmax₁ tag htag] at hchange hmax ⊢
    rw [← hmax₁ tag htag] at hnew
    rcases h₁.changeVar htag hmax hnew with ⟨heq, -⟩ | ⟨s', heq, hheld, -⟩
    · rw [heq] at hchange
      cases hchange
      exact Or.inl ⟨rfl, H₁, h₁, hsuf, hmax₁⟩
    · rw [heq] at hchange
      cases hchange
      exact Or.inr ⟨rfl, H₁, hsuf, hheld⟩
  have hchg : (chgCtxt tag (ctxtMkItemName tag ((s.info tag).nummax + 1)) (some value) s).1 =
        eNoMem ∧
      Evicted H s (chgCtxt tag (ctxtMkItemName tag ((s.info tag).nummax + 1)) (some value) s).2 ∨
    ∃ s₁, Evicted H s s₁ ∧
      chgCtxt tag (ctxtMkItemName tag ((s.info tag).nummax + 1)) (some value) s =
        changeVar tag (ctxtMkItemName tag ((s.info tag).nummax + 1)) (some value)
          (newlen s.env (ctxtMkItemName tag ((s.info tag).nummax + 1)) (some value)) s₁ := by
    rw [chgCtxt]
    dsimp only
    split
    · rw [if_neg (fun hno => halias hno.1)]
      have hevicted := @makeRoom_evicted
        (newlen s.env (ctxtMkItemName tag ((s.info tag).nummax + 1)) (some value))
        (s.removable + 1) true true s H h
      split
      · exact Or.inr ⟨_, hevicted, rfl⟩
      · exact Or.inl ⟨rfl, hevicted⟩
    · exact Or.inr ⟨s, h.evicted, rfl⟩
  rw [ctxtSet]
  rcases hchg with ⟨hrc, hevicted⟩ | ⟨s₁, hevicted, heq⟩
  · dsimp only
    rw [if_neg (by rw [hrc]; decide)]
    exact Or.inl ⟨hrc, hevicted⟩
  · rw [heq]
    rcases hpair : changeVar tag (ctxtMkItemName tag ((s.info tag).nummax + 1)) (some value)
      (newlen s.env (ctxtMkItemName tag ((s.info tag).nummax + 1)) (some value)) s₁ with ⟨rc, s₂⟩
    dsimp only
    rcases hlast s₁ hevicted rc s₂ hpair with ⟨rfl, hev⟩ | ⟨rfl, hadd⟩
    · rw [if_neg (by decide)]
      exact Or.inl ⟨rfl, hev⟩
    · rw [if_pos rfl]
      exact Or.inr ⟨rfl, hadd⟩

/-! ## Renumbering -/

/-- Items get new numbers, and everything else stays. -/
theorem renumber_spec (hlen : ∀ v ∈ vars, ctxtProbeItemTag tag v = true → v.1.length = 5) :
    (renumber tag n vars).1.filter (ctxtProbeItemTag tag) =
        mkItems tag (n + 1) ((vars.filter (ctxtProbeItemTag tag)).map Prod.snd) ∧
      (renumber tag n vars).2 = n + (vars.filter (ctxtProbeItemTag tag)).length ∧
      (∀ tag' ≠ tag, (renumber tag n vars).1.filter (ofTag tag') = vars.filter (ofTag tag')) ∧
      bytes ((renumber tag n vars).1.filter (ofTag tag)) = bytes (vars.filter (ofTag tag)) ∧
      bytes (renumber tag n vars).1 = bytes vars := by
  induction vars generalizing n with
  | nil => exact ⟨rfl, rfl, fun _ _ => rfl, rfl, rfl⟩
  | cons v vars ih =>
    have hrest := fun v hv => hlen v (List.mem_cons_of_mem _ hv)
    rw [renumber]
    by_cases hp : ctxtProbeItemTag tag v = true
    · obtain ⟨hitems, hnum, hother, hown, hall⟩ := @ih (n + 1) hrest
      have hfive := length_ctxtMkItemName tag (Nat.succ_pos n)
      have hname : ctxtMkItemName tag (n + 1) ++ v.1.drop (ctxtMkItemName tag (n + 1)).length =
          ctxtMkItemName tag (n + 1) := by
        rw [hfive, List.drop_eq_nil_of_le (hlen v List.mem_cons_self hp).le, List.append_nil]
      have hnew : ctxtProbeItemTag tag (ctxtMkItemName tag (n + 1), v.2) = true :=
        probe_of_name (Nat.succ_pos n) rfl
      have hvar : envVarlen (ctxtMkItemName tag (n + 1), v.2) = envVarlen v := by
        rw [envVarlen, envVarlen, hlen v List.mem_cons_self hp, hfive]
      rw [if_pos hp]
      dsimp only
      rw [hname]
      refine ⟨?_, ?_, fun tag' hne => ?_, ?_, ?_⟩
      · rw [List.filter_cons_of_pos hnew, List.filter_cons_of_pos hp, hitems, List.map_cons,
          mkItems]
      · rw [List.filter_cons_of_pos hp, hnum, List.length_cons]
        omega
      · have hv : ofTag tag' v = ofTag tag' (ctxtMkItemName tag (n + 1), v.2) := by
          have hhead := ofTag_of_probe hp
          have hhead' := ofTag_of_probe hnew
          rw [ofTag, beq_iff_eq] at hhead hhead'
          rw [ofTag, ofTag, hhead, hhead']
        rw [List.filter_cons, List.filter_cons, hv, hother tag' hne]
        have hno : ofTag tag' (ctxtMkItemName tag (n + 1), v.2) = false := by
          have hof := @ofTag_name tag (n + 1) (ctxtMkItemName tag (n + 1), v.2) tag' rfl
          rw [hof, decide_eq_false hne]
        rw [hno]
        rfl
      · rw [List.filter_cons_of_pos (ofTag_of_probe hnew),
          List.filter_cons_of_pos (ofTag_of_probe hp), bytes_cons, bytes_cons, hvar, hown]
      · rw [bytes_cons, bytes_cons, hvar, hall]
    · obtain ⟨hitems, hnum, hother, hown, hall⟩ := @ih n hrest
      rw [if_neg hp]
      dsimp only
      refine ⟨?_, ?_, fun tag' hne => ?_, ?_, ?_⟩
      · rw [List.filter_cons_of_neg hp, List.filter_cons_of_neg hp, hitems]
      · rw [List.filter_cons_of_neg hp, hnum]
      · rw [List.filter_cons, List.filter_cons, hother tag' hne]
      · rw [List.filter_cons, List.filter_cons]
        split
        · rw [bytes_cons, bytes_cons, hown]
        · exact hown
      · rw [bytes_cons, bytes_cons, hall]

theorem length_mkItems (tag : Tag) (n : ℕ) (values : List Str) :
    (mkItems tag n values).length = values.length := by
  rw [← List.length_map Prod.snd, map_snd_mkItems]

/-- The items of a queue are numbered from one on. -/
theorem Queue.renumber (h : Queue tag s values) :
    Queue tag (ctxtRenumberItems tag s) values ∧ Aside tag s (ctxtRenumberItems tag s) := by
  have hlen : ∀ v ∈ s.env.vars, ctxtProbeItemTag tag v = true → v.1.length = 5 := by
    intro v hv hp
    have hmem := List.mem_filter.mpr ⟨hv, hp⟩
    rw [h.items] at hmem
    obtain ⟨n, hle, -, hname⟩ := mem_mkItems hmem
    rw [hname]
    exact length_ctxtMkItemName tag (by omega)
  obtain ⟨hitems, hnum, hother, hown, hall⟩ := @renumber_spec tag 0 s.env.vars hlen
  rw [h.items, map_snd_mkItems] at hitems
  rw [h.items, length_mkItems, Nat.zero_add] at hnum
  have hmax := h.nummax
  have hbound := h.bound
  rw [ctxtRenumberItems]
  dsimp only
  refine ⟨⟨?_, ?_, ?_, ?_⟩, ⟨hother, fun tag' hne => setInfo_of_ne s _ hne, fun hroom => ?_⟩⟩
  · dsimp only
    rw [setInfo_self]
    exact hitems
  · dsimp only
    rw [setInfo_self]
    exact hnum.trans (Nat.zero_add _).symm
  · dsimp only
    rw [setInfo_self]
    exact show (Ctxt.renumber tag 0 s.env.vars).2 ≤ 65535 by omega
  · dsimp only [State.tagBytes]
    rw [setInfo_self, hown]
    exact h.sizecur
  · refine ⟨?_, hroom.length⟩
    dsimp only
    rw [hall]
    exact hroom.fits

/-! ## The steps -/

/-- The two queues, the older items of which may be gone. -/
def Retained (H : Tag → List Str) (s : State) : Prop :=
  ∃ H', Held s H' ∧ ∀ tag, IsQueue tag → H' tag <:+ H tag

/-- A push, which counts from one again when it has come to the last number. -/
theorem ctxtPush_held (h : Held s H) (htag : IsQueue tag) (buf : Str) :
    (ctxtPush tag buf s).1 ≠ 0 ∧ Retained H (ctxtPush tag buf s).2 ∨
      (ctxtPush tag buf s).1 = 0 ∧
        Retained (Function.update H tag (H tag ++ [buf])) (ctxtPush tag buf s).2 := by
  -- the push proper, in a state where there is a next number
  have hset : ∀ s', Held s' H → (s'.info tag).nummax < 65535 → ∀ rc s'',
      ctxtSet tag ((s'.info tag).nummax + 1) buf s' = (rc, s'') →
      (if rc = 0 then 0 else eNoMem) ≠ 0 ∧ Retained H s'' ∨
        (if rc = 0 then 0 else eNoMem) = 0 ∧
          Retained (Function.update H tag (H tag ++ [buf])) s'' := by
    intro s' h' hmax rc s'' heq
    have hnext := ctxtSet_next h' htag hmax buf
    rw [heq] at hnext
    rcases hnext with ⟨hrc, H₁, h₁, hsuf, -⟩ | ⟨hrc, H₁, hsuf, h₁⟩
    · left
      rw [if_neg (by rw [show rc = eNoMem from hrc]; decide)]
      exact ⟨by decide, H₁, h₁, hsuf⟩
    · right
      rw [if_pos (show rc = 0 from hrc)]
      refine ⟨rfl, _, h₁, fun tag' htag' => ?_⟩
      rcases eq_or_ne tag' tag with rfl | hne
      · rw [Function.update_self, Function.update_self]
        exact List.suffix_append_self_iff.mpr (hsuf tag' htag')
      · rw [Function.update_of_ne hne, Function.update_of_ne hne]
        exact hsuf tag' htag'
  rw [ctxtPush]
  dsimp only
  split
  · obtain ⟨hq, haside⟩ := (h.queue tag htag).renumber
    have h' : Held (ctxtRenumberItems tag s) H := by
      refine ⟨fun tag' htag' => ?_, haside.room h.room⟩
      rcases eq_or_ne tag' tag with rfl | hne
      · exact hq
      · exact (h.queue tag' htag').aside hne haside
    split
    · exact Or.inl ⟨show eNoItems ≠ 0 by decide, H, h', fun _ _ => List.suffix_rfl⟩
    · rename_i hno
      have hbound := hq.bound
      exact hset _ h' (by omega) _ _ rfl
  · rename_i hno
    have hbound := (h.queue tag htag).bound
    exact hset _ h (by omega) _ _ rfl

/-- A pop, when there is something to pop, and memory for it. -/
theorem ctxtPop_held (h : Held s H) (htag : IsQueue tag)
    (hlt : (s.info tag).nummin < (s.info tag).nummax) :
    ∃ rest value, H tag = rest ++ [value] ∧ (ctxtPop tag true s).1 = some value ∧
      Held (ctxtPop tag true s).2 (Function.update H tag rest) := by
  have hq := h.queue tag htag
  have hmax := hq.nummax
  rcases List.eq_nil_or_concat (H tag) with hnil | ⟨rest, value, hvalues⟩
  · rw [hnil, List.length_nil] at hmax
    omega
  · rw [List.concat_eq_append] at hvalues
    rw [hvalues] at hq
    obtain ⟨s', hget, hq', haside⟩ := hq.pop
    have hpop : ctxtPop tag true s = (some value, s') := by
      obtain ⟨n, hn⟩ : ∃ n, (s.info tag).nummax = n + 1 := ⟨_, (Nat.succ_pred (by omega)).symm⟩
      rw [hn, Nat.add_sub_cancel] at hget
      rw [ctxtPop, hn, popLoop, if_pos (by omega)]
      simp only [hget]
    rw [hpop]
    refine ⟨rest, value, hvalues, rfl, fun tag' htag' => ?_, haside.room h.room⟩
    rcases eq_or_ne tag' tag with rfl | hne
    · rwa [Function.update_self]
    · rw [Function.update_of_ne hne]
      exact (h.queue tag' htag').aside hne haside

theorem int16_eq_sub {n : ℤ} (h : 32768 ≤ n) (h' : n < 98304) : int16 n = n - 65536 := by
  rw [int16, Int.bmod_def]
  split <;> omega

/-- A retrieval by the distance from the newest line. -/
theorem histGet_held {k : ℕ} (h : Held s H) (len : ℕ) (hk : 0 < k) (hk' : k ≤ 32768)
    (hsign : (s.info .history).nummax + 1 < 32768 + k ∨ 32768 ≤ (s.info .history).nummin)
    (hlast : (s.info .history).nummax = 65535 →
      (s.info .history).nummin + k ≤ (s.info .history).nummax) :
    histGet (-k) len true s = ((H .history).reverse[k - 1]?).map (·.take (len - 1)) := by
  have hq := h.queue .history (Or.inl rfl)
  have hmax := hq.nummax
  have hbound := hq.bound
  have hget : histGet (-k) len true s = (s.env.findVar
      (ctxtMkItemName .history (realNum .history (-k) s))).map (·.take (len - 1)) := by
    rw [histGet, ctxtGet]
    dsimp only
    cases s.env.findVar (ctxtMkItemName .history (realNum .history (-k) s)) <;> rfl
  rw [hget]
  congr 1
  have hneg : (-(k : ℤ)) ≠ 0 := by omega
  have hneg' : (-(k : ℤ)) < 0 := by omega
  rw [realNum]
  dsimp only
  rw [if_neg hneg, if_pos hneg']
  by_cases hin : k ≤ (H .history).length
  · -- the line is there
    have hnum : int16 ((s.info .history).nummax + 1 + -k) > int16 (s.info .history).nummin ∧
        (int16 ((s.info .history).nummax + 1 + -k) % 65536).toNat =
          (s.info .history).nummax + 1 - k := by
      rcases hsign with hsmall | hbig
      · rw [int16_eq (by omega) (by omega), int16_eq (by omega) (by omega)]
        omega
      · rw [int16_eq_sub (by omega) (by omega), int16_eq_sub (by omega) (by omega)]
        omega
    rw [if_pos hnum.1, hnum.2, hq.find (by omega) (by omega), if_pos (by omega),
      List.getElem?_reverse (by omega)]
    congr 1
    omega
  · -- there are fewer lines
    have hnone : (H .history).reverse[k - 1]? = none :=
      List.getElem?_eq_none (by rw [List.length_reverse]; omega)
    rw [hnone]
    split
    · rename_i hgt
      have hlow : 0 < (int16 ((s.info .history).nummax + 1 + -k) % 65536).toNat ∧
          (int16 ((s.info .history).nummax + 1 + -k) % 65536).toNat ≤
            (s.info .history).nummin := by
        rcases Nat.lt_or_ge (s.info .history).nummin 32768 with hsmall | hbig
        · rw [int16_eq (by omega) (by omega), int16_eq (by omega) (by omega)] at hgt
          omega
        · rcases Nat.lt_or_ge ((s.info .history).nummax + 1) (32768 + k) with hlt | hge
          · rw [int16_eq (by omega) (by omega)]
            omega
          · rw [int16_eq_sub (by omega) (by omega), int16_eq_sub (by omega) (by omega)] at hgt
            omega
      rw [hq.find hlow.1 (by omega), if_neg (by omega)]
    · rw [hq.find (by decide) (by decide), if_pos (by omega)]
      exact List.getElem?_eq_none (by omega)

/-! ## Runs from a state where the queues are in order -/

/-- The steps that the code can count: an addition as long as there is a next number, a pop of what
is there and a retrieval for which there is memory, by a distance that fits an `int`; and either the
number that it comes to is positive as an `int`, or that of the oldest line is not. -/
def Counts (s : State × Log) : Event → Prop
  | .add _ => (s.1.info .history).nummax ≠ 65535
  | .push _ => True
  | .pop ok => ok = true ∧ (s.1.info .dirstack).nummin < (s.1.info .dirstack).nummax
  | .get k _ ok => ok = true ∧ 0 < k ∧ k ≤ 32768 ∧
      ((s.1.info .history).nummax + 1 < 32768 + k ∨ 32768 ≤ (s.1.info .history).nummin) ∧
      ((s.1.info .history).nummax = 65535 →
        (s.1.info .history).nummin + k ≤ (s.1.info .history).nummax)

/-- What is retained is the end of what has been added and not been popped, and the sizes are
right. -/
structure Faithful (s : State × Log) : Prop where
  history : s.1.items .history <:+ s.2.added
  stack : s.1.items .dirstack <:+ s.2.stack
  sizecur : ∀ tag, IsQueue tag → (s.1.info tag).sizecur = s.1.tagBytes tag

/-- What a step should return: the line at that distance from the newest one, or the last
directory. -/
def Answers (s : State × Log) : Event → Outcome → Prop
  | .get k len _, out => out.buf = ((s.1.items .history).reverse[k - 1]?).map (·.take (len - 1))
  | .pop _, out => s.2.stack ≠ [] ∧ out.buf = s.2.stack.getLast?
  | _, _ => True

/-- The queues are in order, and hold the end of what is remembered. -/
def InOrder (s : State × Log) : Prop :=
  ∃ H, Held s.1 H ∧ H .history <:+ s.2.added ∧ H .dirstack <:+ s.2.stack

variable {t : State × Log} {e : Event} {evs : List Event}

theorem InOrder.answers (h : InOrder t) (hok : Counts t e) : Answers t e (t.1.step e).1 := by
  obtain ⟨H, hheld, -, hstack⟩ := h
  cases e with
  | add line => trivial
  | push dir => trivial
  | pop ok =>
    obtain ⟨rfl, hlt⟩ := hok
    obtain ⟨rest, value, hvalues, hpop, -⟩ := ctxtPop_held hheld (Or.inr rfl) hlt
    rw [hvalues] at hstack
    obtain ⟨front, hfront⟩ := hstack
    refine ⟨?_, hpop.trans ?_⟩
    · rw [← hfront]
      simp
    · rw [← hfront, ← List.append_assoc, List.getLast?_concat]
  | get k len ok =>
    obtain ⟨rfl, hk, hk', hsign, hlast⟩ := hok
    rw [Answers, (hheld.queue .history (Or.inl rfl)).values_eq]
    exact histGet_held hheld len hk hk' hsign hlast

/-- One step keeps the queues in order. -/
theorem InOrder.step (h : InOrder t) (hok : Counts t e) : InOrder (logStep t e) := by
  obtain ⟨H, hheld, hhist, hstack⟩ := h
  cases e with
  | add line =>
    have hbound := (hheld.queue .history (Or.inl rfl)).bound
    have hne : (t.1.info .history).nummax ≠ 65535 := hok
    have hnum : realNum .history 0 t.1 = (t.1.info .history).nummax + 1 := by
      rw [realNum]
      exact Nat.mod_eq_of_lt (by omega)
    have hlog : logStep t (.add line) =
        ((ctxtSet .history ((t.1.info .history).nummax + 1) line t.1).2,
          if (ctxtSet .history ((t.1.info .history).nummax + 1) line t.1).1 = 0 then
            { t.2 with added := t.2.added ++ [line] } else t.2) := by
      rw [logStep, State.step, histSet, hnum]
      rfl
    rw [hlog]
    rcases ctxtSet_next hheld (Or.inl rfl) (by omega) line with ⟨hrc, H₁, h₁, hsuf, -⟩ |
      ⟨hrc, H₁, hsuf, h₁⟩
    · rw [if_neg (by rw [hrc]; decide)]
      exact ⟨H₁, h₁, (hsuf _ (Or.inl rfl)).trans hhist, (hsuf _ (Or.inr rfl)).trans hstack⟩
    · rw [if_pos hrc]
      refine ⟨_, h₁, ?_, ?_⟩
      · rw [Function.update_self]
        exact List.suffix_append_self_iff.mpr ((hsuf _ (Or.inl rfl)).trans hhist)
      · rw [Function.update_of_ne (by decide)]
        exact (hsuf _ (Or.inr rfl)).trans hstack
  | push dir =>
    have hlog : logStep t (.push dir) = ((ctxtPush .dirstack dir t.1).2,
        if (ctxtPush .dirstack dir t.1).1 = 0 then
          { t.2 with stack := t.2.stack ++ [dir] } else t.2) := rfl
    rw [hlog]
    rcases ctxtPush_held hheld (Or.inr rfl) dir with ⟨hrc, H₁, h₁, hsuf⟩ | ⟨hrc, H₁, h₁, hsuf⟩
    · rw [if_neg hrc]
      exact ⟨H₁, h₁, (hsuf _ (Or.inl rfl)).trans hhist, (hsuf _ (Or.inr rfl)).trans hstack⟩
    · have hsuf₁ := hsuf _ (Or.inl rfl)
      have hsuf₂ := hsuf _ (Or.inr rfl)
      rw [Function.update_of_ne (by decide)] at hsuf₁
      rw [Function.update_self] at hsuf₂
      rw [if_pos hrc]
      exact ⟨H₁, h₁, hsuf₁.trans hhist, hsuf₂.trans (List.suffix_append_self_iff.mpr hstack)⟩
  | pop ok =>
    obtain ⟨rfl, hlt⟩ := hok
    obtain ⟨rest, value, hvalues, hpop, hheld'⟩ := ctxtPop_held hheld (Or.inr rfl) hlt
    rw [hvalues] at hstack
    have hlog : logStep t (.pop true) = ((ctxtPop .dirstack true t.1).2,
        if (ctxtPop .dirstack true t.1).1.isSome then
          { t.2 with stack := t.2.stack.dropLast } else t.2) := rfl
    rw [hlog, if_pos (by rw [hpop]; rfl)]
    refine ⟨_, hheld', ?_, ?_⟩
    · rw [Function.update_of_ne (by decide)]
      exact hhist
    · rw [Function.update_self]
      obtain ⟨front, hfront⟩ := hstack
      dsimp only
      rw [← hfront, ← List.append_assoc, List.dropLast_concat]
      exact List.suffix_append front rest
  | get k len ok => exact ⟨H, hheld, hhist, hstack⟩

/-- Two queues that nothing has been put into. -/
structure Fresh (s : State) : Prop where
  held : Held s fun _ => []
  nummax : ∀ tag, IsQueue tag → (s.info tag).nummax = 0

/-- A status is stored behind the other variables. -/
theorem Fresh.addStatus (h : Fresh s) (hnone : s.env.findVar [tag.code] = none)
    (hrc : (ctxtAddStatus tag s).1 = 0) : Fresh (ctxtAddStatus tag s).2 ∧
      ∃ value, (ctxtAddStatus tag s).2.env.vars = s.env.vars ++ [([tag.code], value)] := by
  have hinrange : ∀ tag', IsQueue tag' → (s.info tag').inRange = true := by
    intro tag' htag'
    have hmax := (h.held.queue tag' htag').nummax
    rw [CtxtInfo.inRange, Bool.or_eq_true, decide_eq_true_eq, decide_eq_true_eq]
    exact Or.inr hmax.le
  rw [ctxtAddStatus] at hrc ⊢
  generalize hvalue : [UInt8.ofNat (((s.info tag).sizemax ||| 0x8001) % 256),
    UInt8.ofNat (((s.info tag).sizemax ||| 0x8001) / 256)] = value at hrc ⊢
  have htwo : value.length = 2 := hvalue ▸ rfl
  have hname : ctxtMkItemName tag 0 = [tag.code] := rfl
  have hnew : newlen s.env [tag.code] (some value) = 5 := by
    rw [newlen, hnone]
    dsimp only
    rw [htwo]
    exact show int16 (((1 : ℕ) : ℤ) + ((2 : ℕ) : ℤ) + 2) = 5 from
      int16_eq (by decide) (by decide)
  have hroom : makeRoom 5 (s.removable + 1) true true s = (decide (5 ≤ s.env.freeCount), s) := by
    rw [makeRoom]
    dsimp only
    rw [hinrange _ (Or.inl rfl), hinrange _ (Or.inr rfl)]
    by_cases hfree : s.env.freeCount < 5
    · rw [if_pos (by omega), decide_eq_false (by omega)]
      rfl
    · rw [if_neg (by omega), decide_eq_true (by omega)]
  have hchg : chgCtxt tag [tag.code] (some value) s = (eNoMem, s) ∨ 5 ≤ s.env.freeCount ∧
      chgCtxt tag [tag.code] (some value) s = changeVar tag [tag.code] (some value) 5 s := by
    rw [chgCtxt]
    dsimp only
    rw [hnew, if_pos (by omega), hroom]
    dsimp only
    split
    · exact Or.inl rfl
    · split
      · rename_i hfree
        exact Or.inr ⟨of_decide_eq_true hfree, rfl⟩
      · exact Or.inl rfl
  rw [ctxtSet, hname] at hrc ⊢
  rcases hchg with hno | ⟨hfree, hchg⟩
  · rw [hno] at hrc
    exact absurd (show eNoMem = 0 from hrc) (by decide)
  · have hchange : changeVar tag [tag.code] (some value) 5 s =
        (0, { s.setInfo tag { s.info tag with
                sizecur := (((s.info tag).sizecur + (5 : ℤ)) % 65536).toNat } with
              env := { s.env with vars := s.env.vars ++ [([tag.code], value)] } }) := by
      rw [changeVar, envChange.eq_def, hnone]
      dsimp only
      rw [htwo, if_neg (by rw [List.length_singleton]; omega)]
      rfl
    rw [hchg, hchange]
    dsimp only
    rw [if_pos rfl]
    have hfits : bytes (s.env.vars ++ [([tag.code], value)]) + 3 ≤ s.env.length := by
      have hold := h.held.room.fits
      rw [Env.freeCount] at hfree
      rw [bytes_append, bytes_cons, envVarlen]
      dsimp only
      rw [htwo, List.length_singleton]
      exact show bytes s.env.vars + (1 + 2 + 2 + 0) + 3 ≤ s.env.length by omega
    have hlong := h.held.room.length
    refine ⟨⟨⟨fun tag' htag' => ?_, hfits, hlong⟩, fun tag' htag' => ?_⟩, value, rfl⟩
    · have hq := h.held.queue tag' htag'
      have hzero := h.nummax tag' htag'
      have hmin := hq.nummax
      have hitems : (s.env.vars ++ [([tag.code], value)]).filter (ctxtProbeItemTag tag') = [] := by
        rw [List.filter_append, hq.items]
        rfl
      rcases eq_or_ne tag' tag with rfl | hne
      · have hown : ofTag tag' ([tag'.code], value) = true := by simp [ofTag]
        have hbytes : bytes ((s.env.vars ++ [([tag'.code], value)]).filter (ofTag tag')) =
            (s.info tag').sizecur + 5 := by
          rw [List.filter_append, List.filter_cons_of_pos hown, bytes_append, bytes_cons, envVarlen,
            htwo, hq.sizecur]
          rfl
        have hle := bytes_filter_le (ofTag tag') (s.env.vars ++ [([tag'.code], value)])
        refine ⟨?_, ?_, ?_, ?_⟩
        · rw [setInfo_self]
          exact hitems
        · rw [setInfo_self]
          dsimp only
          rw [setInfo_self]
          exact show max (s.info tag').nummax 0 = min (s.info tag').nummin 0 + 0 by omega
        · rw [setInfo_self]
          dsimp only
          rw [setInfo_self]
          exact show max (s.info tag').nummax 0 ≤ 65535 by omega
        · rw [setInfo_self]
          dsimp only [State.tagBytes, State.setInfo]
          rw [Function.update_self, hbytes]
          dsimp only
          omega
      · refine hq.aside hne ⟨fun tag'' hne'' => ?_, fun tag'' hne'' => ?_, fun _ => ⟨hfits, hlong⟩⟩
        · have hother : ofTag tag'' ([tag.code], value) = false := by
            have hcode : tag.code ≠ tag''.code := fun hcode => hne'' (Tag.code_inj hcode).symm
            simp [ofTag, hcode]
          exact show (s.env.vars ++ [([tag.code], value)]).filter (ofTag tag'') =
            s.env.vars.filter (ofTag tag'') by
            rw [List.filter_append, List.filter_cons_of_neg (ne_true_of_eq_false hother),
              List.filter_nil, List.append_nil]
        · exact (setInfo_of_ne _ _ hne'').trans (setInfo_of_ne s _ hne'')
    · have hzero := h.nummax tag' htag'
      rcases eq_or_ne tag' tag with rfl | hne
      · rw [setInfo_self]
        dsimp only
        rw [setInfo_self]
        exact show max (s.info tag').nummax 0 = 0 by omega
      · exact ((setInfo_of_ne _ _ hne).trans (setInfo_of_ne s _ hne)).symm ▸ hzero

/-- The statuses leave the queues empty. -/
theorem Fresh.addStatuses {tags : List Tag} (h : Fresh s) (hnodup : tags.Nodup)
    (hnone : ∀ tag ∈ tags, s.env.findVar [tag.code] = none)
    (hs' : Ctxt.addStatuses tags s = some s') : Fresh s' := by
  induction tags generalizing s with
  | nil =>
    cases hs'
    exact h
  | cons tag tags ih =>
    rw [Ctxt.addStatuses] at hs'
    dsimp only at hs'
    split at hs'
    · rename_i hrc
      obtain ⟨hfresh, value, hvars⟩ := h.addStatus (hnone tag List.mem_cons_self) hrc
      refine ih hfresh (List.nodup_cons.mp hnodup).2 (fun tag' htag' => ?_) hs'
      have hne : tag ≠ tag' := fun heq => (List.nodup_cons.mp hnodup).1 (heq ▸ htag')
      have hcode : [tag.code] ≠ [tag'.code] := fun heq => hne (Tag.code_inj (List.cons.inj heq).1)
      have hold := hnone tag' (List.mem_cons_of_mem tag htag')
      rw [Env.findVar, Option.map_eq_none_iff] at hold ⊢
      rw [hvars, List.find?_append, hold, List.find?_cons_of_neg (by simpa using hcode)]
      rfl
    · cases hs'

/-- The limits of `config.h`. -/
def defaultSizes : Tag → ℕ
  | .history => 256
  | .dirstack => 256
  | .batch => 5
  | .alias => 1024
  | _ => 65535

/-- What the shell starts with. -/
def start : State := (ctxtCreate 2304 defaultSizes).getD ⟨⟨[], 0⟩, fun _ => ⟨0, 0, 0, 0⟩⟩

/-- The history after `n` lines `A`, of which the last `c` are there. -/
structure Filling (n c : ℕ) (s : State) : Prop where
  held : Held s fun tag => if tag = .history then List.replicate c [65] else []
  nummax : (s.info .history).nummax = n
  sizemax : (s.info .history).sizemax = 256
  length : s.env.length = 2304
  bytes : bytes s.env.vars = 20 + 8 * c

theorem bytes_replicate (m c : ℕ) (hm : 0 < m) :
    bytes (mkItems tag m (List.replicate c [65])) = 8 * c := by
  induction c generalizing m with
  | zero => rfl
  | succ c ih =>
    rw [List.replicate_succ, mkItems, bytes_cons, ih (m + 1) (Nat.succ_pos m), envVarlen,
      length_ctxtMkItemName tag hm, List.length_singleton]
    omega

/-- There is room for a line after the oldest one has been removed. -/
theorem Filling.makeRoom {c : ℕ} (h : Filling n c s) :
    ∃ c' s', Ctxt.makeRoom 8 (s.removable + 1) true true s = (true, s') ∧ Filling n c' s' ∧
      8 ≤ s'.env.freeCount := by
  have hq := h.held.queue .history (Or.inl rfl)
  rw [if_pos rfl] at hq
  have hd := h.held.queue .dirstack (Or.inr rfl)
  have hcur := hq.sizecur
  rw [State.tagBytes, bytes_ofTag, hq.items, bytes_replicate _ _ (Nat.succ_pos _)] at hcur
  have hmax := hq.nummax
  rw [List.length_replicate] at hmax
  have hfree : s.env.freeCount = 2304 - (20 + 8 * c + 3) := by
    rw [Env.freeCount, h.length, h.bytes]
  have hfits := h.held.room.fits
  rw [h.length, h.bytes] at hfits
  by_cases hroom : 8 ≤ s.env.freeCount
  · refine ⟨c, s, ?_, h, hroom⟩
    rw [Ctxt.makeRoom, if_neg (by omega)]
  · obtain ⟨k, rfl⟩ : ∃ k, c = k + 1 := ⟨c - 1, by omega⟩
    rw [List.replicate_succ] at hq
    obtain ⟨hq', haside, hmax', hgrows⟩ := hq.evictItem
    have hbytes := hgrows.bytes
    have hlength := hgrows.length
    rw [h.bytes, List.length_singleton] at hbytes
    rw [h.length] at hlength
    have hfilling : Filling n k (evictItem .history s) := by
      refine ⟨⟨fun tag htag => ?_, haside.room h.held.room⟩, hmax'.trans h.nummax,
        hgrows.sizemax.trans h.sizemax, hlength, by omega⟩
      rcases eq_or_ne tag .history with rfl | hne
      · rw [if_pos rfl]
        exact hq'
      · have hold := h.held.queue tag htag
        rw [if_neg hne] at hold ⊢
        exact hold.aside hne haside
    have hfree' : (evictItem .history s).env.freeCount = 2304 - (20 + 8 * k + 3) := by
      rw [Env.freeCount, hlength, hfilling.bytes]
    have hhist : (s.info .history).inRange = false := by
      rw [CtxtInfo.inRange, h.sizemax, Bool.or_eq_false_iff, decide_eq_false_iff_not,
        decide_eq_false_iff_not]
      omega
    have hdir : (s.info .dirstack).inRange = true := by
      have hzero := hd.nummax
      rw [if_neg (by decide), List.length_nil] at hzero
      rw [CtxtInfo.inRange, Bool.or_eq_true, decide_eq_true_eq, decide_eq_true_eq]
      exact Or.inr hzero.le
    obtain ⟨fuel, hfuel⟩ : ∃ fuel, s.removable = fuel + 1 := by
      refine ⟨s.removable - 1, ?_⟩
      rw [State.removable]
      omega
    refine ⟨k, evictItem .history s, ?_, hfilling, by omega⟩
    rw [hfuel, Ctxt.makeRoom, if_pos (by omega)]
    dsimp only
    rw [hhist, hdir]
    simp only [Bool.not_false, Bool.not_true, Bool.and_true, Bool.and_false, Bool.false_eq_true,
      if_false, if_true]
    rw [Ctxt.makeRoom, if_neg (by omega)]

/-- A line is added. -/
theorem Filling.add {c : ℕ} (h : Filling n c s) (hn : n < 65535) :
    ∃ c', Filling (n + 1) (c' + 1) (histSet 0 [65] s).2 := by
  have hmax : (s.info .history).nummax < 65535 := h.nummax.trans_lt hn
  have hnum : realNum .history 0 s = (s.info .history).nummax + 1 := by
    rw [realNum]
    exact Nat.mod_eq_of_lt (by omega)
  have hnone := (h.held.queue .history (Or.inl rfl)).find_next hmax
  have hnew : newlen s.env (ctxtMkItemName .history ((s.info .history).nummax + 1)) (some [65]) =
      8 := by
    rw [newlen, hnone]
    dsimp only
    rw [length_ctxtMkItemName _ (Nat.succ_pos _)]
    exact int16_eq (by decide) (by decide)
  obtain ⟨k, s₁, hroom, h₁, hfree⟩ := h.makeRoom
  have hmax₁ : (s₁.info .history).nummax = (s.info .history).nummax := by
    rw [h₁.nummax, h.nummax]
  have hnone₁ := (h₁.held.queue .history (Or.inl rfl)).find_next (by omega)
  have hnew₁ : (8 : ℤ) =
      newlen s₁.env (ctxtMkItemName .history ((s₁.info .history).nummax + 1)) (some [65]) := by
    rw [← hnew, newlen, newlen, hnone, hnone₁, hmax₁]
  rcases h₁.held.changeVar (Or.inl rfl) (by omega) hnew₁ with ⟨-, hfull⟩ |
    ⟨s₂, heq, hheld, hnum₂, hgrows⟩
  · rw [List.length_singleton] at hfull
    omega
  · rw [hmax₁] at heq hheld hnum₂ hgrows
    have hchg : chgCtxt .history (ctxtMkItemName .history ((s.info .history).nummax + 1))
        (some [65]) s = (0, s₂) := by
      rw [chgCtxt]
      dsimp only
      rw [hnew, if_pos (show (0 : ℤ) < 8 by decide), if_neg (fun hno => absurd hno.1 (by decide)),
        hroom]
      dsimp only
      rw [if_pos rfl, heq]
    have hset : (histSet 0 [65] s).2 = s₂.counted .history ((s.info .history).nummax + 1) := by
      rw [histSet, hnum, ctxtSet, hchg]
      rfl
    have hbytes := hgrows.bytes
    rw [h₁.bytes, List.length_singleton] at hbytes
    rw [hset]
    refine ⟨k, ⟨fun tag htag => ?_, hheld.room⟩, hnum₂.trans (by rw [h.nummax]),
      hgrows.sizemax.trans h₁.sizemax, hgrows.length.trans h₁.length, by omega⟩
    have hold := hheld.queue tag htag
    rcases eq_or_ne tag .history with rfl | hne
    · rw [Function.update_self, if_pos rfl] at hold
      rw [if_pos rfl, List.replicate_succ']
      exact hold
    · rw [Function.update_of_ne hne, if_neg hne] at hold
      rwa [if_neg hne]

/-- The last line is not found when its number is not positive as an `int`. -/
theorem Filling.lost {c : ℕ} (h : Filling 32768 c s) (hc : 0 < c) :
    (s.items .history).getLast? = some [65] ∧ (s.step (.get 1 256 true)).1.buf = none := by
  have hq := h.held.queue .history (Or.inl rfl)
  rw [if_pos rfl] at hq
  have hmax := hq.nummax
  rw [List.length_replicate, h.nummax] at hmax
  constructor
  · rw [hq.values_eq, List.getLast?_replicate, if_neg hc.ne']
  · have hnum : realNum .history (-((1 : ℕ) : ℤ)) s = 65535 := by
      rw [realNum]
      dsimp only
      rw [if_neg (by decide), if_pos (by decide), h.nummax, int16_eq_sub (by omega) (by omega),
        int16_eq (by omega) (by omega), if_neg (by omega)]
    have hnone : s.env.findVar (ctxtMkItemName .history 65535) = none := by
      rw [hq.find (by omega) (by omega), if_pos (by omega)]
      exact List.getElem?_eq_none (by rw [List.length_replicate]; omega)
    rw [State.step]
    dsimp only
    rw [histGet, hnum, ctxtGet]
    dsimp only
    rw [hnone]
    rfl

end Ctxt
end Shell
end BurdahDos
