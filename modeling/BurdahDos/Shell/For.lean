import BurdahDos.Shell.Lines
import Mathlib

/-!
# The lines of a FOR context

`readbatchline` of `portal/shell/batch.c` with a context that `doFOR` has made at `bc`.  What is
still to come of it is said by `Pends`: by the elements that have not been taken up, the search
that is on, and the names that searches are going to find.  A call delivers the next of it
(`readbatchline_for`), and so successive calls deliver all of it in order: `produced_lines`.
-/

set_option autoImplicit false

namespace BurdahDos
namespace Shell

/-! ## The expansion of the prototype -/

/-- What stands in front of `dp`, and the number of bytes of the buffer up to the last one stored
to. -/
structure Text where
  text : Str
  stored : ℕ
deriving DecidableEq

/-- `*dp++ = c;` -/
def Text.putc (t : Text) (c : UInt8) : Text := ⟨t.text ++ [c], max t.stored (t.text.length + 1)⟩

/-- `dp = stpcpy(dp, s);`, with a NUL behind it. -/
def Text.stpcpy (t : Text) (s : Str) : Text := ⟨t.text ++ s, max t.stored (t.text.length + s.length + 1)⟩

/-- The loop that expands the prototype, of `fuel` turns at most, for an element `fv` with the path
`fv1` in front of it. -/
def protoLoop (forvar fv1 fv : Str) : ℕ → Str → Text → Text
  | 0, _, t => t
  | fuel + 1, sp, t =>
    match sp with
    | [] => t
    | c :: rest =>
      if sp.take forvar.length = forvar then
        protoLoop forvar fv1 fv fuel (sp.drop forvar.length) ((t.stpcpy fv1).stpcpy fv)
      else protoLoop forvar fv1 fv fuel rest (t.putc c)

/-- The expanded prototype in the buffer, with the NUL behind it. -/
def expandTo (forvar fv1 fv proto : Str) : Text :=
  let t := protoLoop forvar fv1 fv proto.length proto ⟨[], 0⟩
  { t with stored := max t.stored (t.text.length + 1) }

/-- One string with a variable in it, and what it becomes: from left to right every occurrence is
replaced, and nothing else is changed. -/
inductive Replaced (forvar value : Str) : Str → Str → Prop
  | nil : Replaced forvar value [] []
  | hit {s t : Str} (h : Replaced forvar value s t) : Replaced forvar value (forvar ++ s) (value ++ t)
  | miss {c : UInt8} {s t : Str} (hmiss : ¬ forvar <+: c :: s) (h : Replaced forvar value s t) :
      Replaced forvar value (c :: s) (c :: t)

theorem protoLoop_spec (forvar fv1 fv : Str) : ∀ (fuel : ℕ) (sp : Str) (t : Text),
    t.stored ≤ t.text.length + 1 →
    (protoLoop forvar fv1 fv fuel sp t).text = t.text ++ expandProto forvar (fv1 ++ fv) fuel sp ∧
      (protoLoop forvar fv1 fv fuel sp t).stored ≤ (protoLoop forvar fv1 fv fuel sp t).text.length + 1
  | 0, sp, t, h => by
    rw [protoLoop, expandProto, List.append_nil]
    exact ⟨rfl, h⟩
  | fuel + 1, [], t, h => by
    rw [protoLoop, expandProto, List.append_nil]
    exact ⟨rfl, h⟩
  | fuel + 1, c :: rest, t, h => by
    rw [protoLoop, expandProto]
    split_ifs
    · have hput : ((t.stpcpy fv1).stpcpy fv).stored ≤ ((t.stpcpy fv1).stpcpy fv).text.length + 1 := by
        simp only [Text.stpcpy, List.length_append]
        omega
      obtain ⟨htext, hstored⟩ := protoLoop_spec forvar fv1 fv fuel ((c :: rest).drop forvar.length) _ hput
      refine ⟨?_, hstored⟩
      rw [htext, Text.stpcpy, Text.stpcpy]
      simp only [List.append_assoc]
    · have hput : (t.putc c).stored ≤ (t.putc c).text.length + 1 := by
        simp only [Text.putc, List.length_append, List.length_singleton]
        omega
      obtain ⟨htext, hstored⟩ := protoLoop_spec forvar fv1 fv fuel rest _ hput
      refine ⟨?_, hstored⟩
      rw [htext, Text.putc, List.append_assoc, List.singleton_append]

/-- What is stored of a line is the line and its NUL. -/
theorem expandTo_spec (forvar fv1 fv proto : Str) :
    (expandTo forvar fv1 fv proto).text = expandProto forvar (fv1 ++ fv) proto.length proto ∧
      (expandTo forvar fv1 fv proto).stored = (expandTo forvar fv1 fv proto).text.length + 1 := by
  obtain ⟨htext, hstored⟩ := protoLoop_spec forvar fv1 fv proto.length proto ⟨[], 0⟩ (Nat.zero_le _)
  rw [List.nil_append] at htext
  exact ⟨htext, max_eq_right hstored⟩

theorem replaced_expandProto {forvar : Str} (hvar : forvar ≠ []) (value : Str) : ∀ {fuel : ℕ} {s : Str},
    s.length ≤ fuel → Replaced forvar value s (expandProto forvar value fuel s)
  | 0, s, h => by
    rw [List.length_eq_zero_iff.1 (Nat.le_zero.1 h)]
    exact .nil
  | fuel + 1, [], _ => .nil
  | fuel + 1, c :: rest, h => by
    have hpos := List.length_pos_of_ne_nil hvar
    rw [List.length_cons] at h
    rw [expandProto]
    split_ifs with hit
    · have hlen : ((c :: rest).drop forvar.length).length ≤ fuel := by
        rw [List.length_drop, List.length_cons]
        omega
      have hrest := Replaced.hit (replaced_expandProto hvar value hlen)
      have hsplit := List.take_append_drop forvar.length (c :: rest)
      rw [hit] at hsplit
      rw [hsplit] at hrest
      exact hrest
    · refine .miss (fun hpre => hit ?_) (replaced_expandProto hvar value (by omega))
      exact (List.prefix_iff_eq_take.1 hpre).symm

/-! ## What a context has still to deliver -/

/-- An element is a wild file specification. -/
def isWild (fv : Str) : Bool := fv.any fun c => c.toNat == 63 || c.toNat == 42

/-- The elements of a list are used as they are, or with the names that a search finds for them,
behind their paths. -/
def items (es : List (Str × List Str)) : List (Str × Str) :=
  es.flatMap fun e => if isWild e.1 then e.2.map fun name => (dirPart e.1, name) else [([], e.1)]

/-- What the searches answer. -/
def answers (es : List (Str × List Str)) : List (Option Str) :=
  es.flatMap fun e => if isWild e.1 then e.2.map some ++ [none] else []

/-- The elements of a context that have not been dealt with. -/
def Context.elements (c : Context) : List Str := (c.params.getD []).drop (c.shiftlevel - 1).toNat

/-- What a context has still to deliver, with these answers to come and others behind them. -/
inductive Pends (after : List (Option Str)) (c : Context) : List (Option Str) → List (Str × Str) → Prop
  /-- The next element is to be taken up. -/
  | element {es : List (Str × List Str)} (helems : c.elements = es.map Prod.fst) (hffind : c.ffind = false) :
      Pends after c (answers es ++ after) (items es)
  /-- A search is on, and the element has been cut to its path. -/
  | search {path : Str} {names : List Str} {es : List (Str × List Str)}
      (helems : c.elements = path :: es.map Prod.fst) (hffind : c.ffind = true) :
      Pends after c (names.map some ++ none :: (answers es ++ after))
        (names.map (fun name => (path, name)) ++ items es)

/-- The number of elements that have not been dealt with. -/
def Context.left (c : Context) : ℕ := c.elements.length

/-- A context of a FOR command is at `bc`, in the state that this is about. -/
structure Here (proto forvar : Str) (after : List (Option Str)) (s : State) (w : World)
    (vals : List (Str × Str)) (b : Block) (rest : List Block) : Prop where
  allocated : Allocated s
  bc : s.bc = b :: rest
  forproto : b.ctx.forproto = some proto
  forvar : b.ctx.forvar = some forvar
  bclose : b.ctx.bclose = false
  shiftlevel : 0 < b.ctx.shiftlevel
  pends : Pends after b.ctx w.finds vals

/-- There is no user break, and enough memory. -/
def Calm (w : World) : Prop := (∀ x ∈ w.breaks, x = false) ∧ ∀ x ∈ w.allocs, x = true

theorem ask_snd_mem {α : Type} {dflt a : α} {l : List α} (h : a ∈ (ask dflt l).2) : a ∈ l := by
  cases l with
  | nil => cases h
  | cons b l => exact List.mem_cons_of_mem b h

theorem ask_fst_mem {α : Type} {dflt : α} (l : List α) : (ask dflt l).1 = dflt ∨ (ask dflt l).1 ∈ l := by
  cases l with
  | nil => exact .inl rfl
  | cons b l => exact .inr List.mem_cons_self

theorem Calm.chkCBreak {w : World} (h : Calm w) : w.chkCBreak.1 = false ∧ Calm w.chkCBreak.2 :=
  ⟨(ask_fst_mem w.breaks).elim id (h.1 _), fun x hx => h.1 x (ask_snd_mem hx), h.2⟩

theorem Calm.alloc {w : World} (h : Calm w) : w.alloc.1 = true ∧ Calm w.alloc.2 :=
  ⟨(ask_fst_mem w.allocs).elim id (h.2 _), h.1, fun x hx => h.2 x (ask_snd_mem hx)⟩

theorem elements_of_le {c : Context} (hpos : 0 < c.shiftlevel) (hle : c.shiftlevel ≤ c.numParams) :
    ∃ fv, findArg c 0 = some fv ∧ c.elements = fv :: (shift c).elements := by
  have hlt : (c.shiftlevel - 1).toNat < (c.params.getD []).length := by
    rw [Context.numParams] at hle
    omega
  refine ⟨(c.params.getD [])[(c.shiftlevel - 1).toNat], ?_, ?_⟩
  · rw [findArg, Int.zero_add, if_neg (by omega), if_neg (by omega)]
    exact List.getElem?_eq_getElem hlt
  · have hnext : ((shift c).shiftlevel - 1).toNat = (c.shiftlevel - 1).toNat + 1 := by
      simp only [shift]
      omega
    rw [Context.elements, Context.elements, hnext, List.drop_eq_getElem_cons hlt]
    rfl

theorem elements_of_lt {c : Context} (hlt : (c.numParams : ℤ) < c.shiftlevel) : c.elements = [] := by
  rw [Context.numParams] at hlt
  exact List.drop_eq_nil_of_le (by omega)

theorem elements_cutParam {c : Context} {fv : Str} {fvs : List Str} (h : c.elements = fv :: fvs) (path : Str) :
    ({ cutParam c path with ffind := true } : Context).elements = path :: fvs := by
  cases hp : c.params with
  | none =>
    rw [Context.elements, hp] at h
    simp at h
  | some ps =>
    rw [Context.elements, hp, Option.getD_some] at h
    rw [Context.elements]
    simp only [cutParam, hp, Option.map_some, Option.getD_some]
    have hlt : (c.shiftlevel - 1).toNat < ps.length := by
      by_contra hlt
      rw [List.drop_eq_nil_of_le (by omega)] at h
      cases h
    rw [List.drop_eq_getElem_cons hlt] at h
    injection h with _ h
    rw [List.drop_eq_getElem_cons (by rw [List.length_set]; exact hlt), List.getElem_set_self,
      List.drop_set_of_lt (Nat.lt_succ_self _), h]

/-! ## A turn -/

/-- The line of an element, or of a name that a search has found for it: a leading at-sign only
says that it is not to be echoed. -/
def lineOf (proto forvar : Str) (item : Str × Str) : Str :=
  (stripAt (expandTo forvar item.1 item.2 proto).text 0).1

/-- The context has been left, as there is nothing more to deliver or something has come in
between. -/
def LeftBehind (id : ℕ) (calm : Prop) (vals : List (Str × Str)) (s : State) : Prop :=
  id ∉ s.bc.map Block.id ∧ (calm → vals = [])

/-- What a turn with a FOR context leads to. -/
def ForNext (proto forvar : Str) (after : List (Option Str)) (id n : ℕ) (calm : Prop)
    (vals : List (Str × Str)) : Option Turn → Prop
  | none => False
  | some (.again r) =>
    (∃ b rest, b.id = id ∧ Here proto forvar after r.shell r.world vals b rest ∧ b.ctx.left < n ∧
      (calm → Calm r.world)) ∨ LeftBehind id calm vals r.shell
  | some (.done none r) => LeftBehind id calm vals r.shell
  | some (.done (some line) r) => ∃ v vs b rest, vals = v :: vs ∧ line.1 = lineOf proto forvar v ∧
      b.id = id ∧ Here proto forvar after r.shell r.world vs b rest ∧ b.ctx.left ≤ n ∧ (calm → Calm r.world)

section

variable {proto forvar : Str} {after : List (Option Str)} {s : State} {w : World}
  {vals : List (Str × Str)} {b : Block} {rest : List Block}

theorem Here.modify (h : Here proto forvar after s w vals b rest) (f : Context → Context)
    (hproto : (f b.ctx).forproto = b.ctx.forproto) (hforvar : (f b.ctx).forvar = b.ctx.forvar)
    (hclose : (f b.ctx).bclose = b.ctx.bclose) (hshift : b.ctx.shiftlevel ≤ (f b.ctx).shiftlevel)
    {w' : World} (vals' : List (Str × Str)) (hpends : Pends after (f b.ctx) w'.finds vals') :
    s.modify f = some { s with bc := { b with ctx := f b.ctx } :: rest } ∧
      Here proto forvar after { s with bc := { b with ctx := f b.ctx } :: rest } w' vals'
        { b with ctx := f b.ctx } rest := by
  obtain ⟨heq, hs⟩ := h.allocated.modify h.bc f
  exact ⟨heq, hs, rfl, hproto.trans h.forproto, hforvar.trans h.forvar, hclose.trans h.bclose,
    lt_of_lt_of_le h.shiftlevel hshift, hpends⟩

/-- The block is taken off the chain. -/
theorem Here.leftBehind (h : Here proto forvar after s w vals b rest) (calm : Prop)
    (vals' : List (Str × Str)) (hvals : calm → vals' = []) :
    exitBatch s = some { s with bc := rest, freed := b.id :: s.freed, echo := b.ctx.echo } ∧
      LeftBehind b.id calm vals' { s with bc := rest, freed := b.id :: s.freed, echo := b.ctx.echo } := by
  have hnodup := h.allocated.nodup
  rw [h.bc, List.map_cons, List.nodup_cons] at hnodup
  exact ⟨(h.allocated.exitBatch h.bc).1, hnodup.1, hvals⟩

theorem forLine_eq {c : Context} (hproto : c.forproto = some proto) (hforvar : c.forvar = some forvar)
    (fv1 fv : Str) (r : Reading) : ∃ eflag, forLine c (fv1 ++ fv) r =
      some (.done (some (lineOf proto forvar (fv1, fv), eflag)) r) := by
  rw [forLine, hproto, hforvar]
  refine ⟨(stripAt (expandProto forvar (fv1 ++ fv) proto.length proto) r.shell.echo).2, ?_⟩
  rw [lineOf, (expandTo_spec forvar fv1 fv proto).1, stripAt_fst _ 0 r.shell.echo]

theorem find_some {name : Str} {names : List (Option Str)} (h : w.finds = some name :: names) :
    w.find.1 = some name ∧ w.find.2.finds = names := by
  rw [World.find, h]
  exact ⟨rfl, rfl⟩

theorem find_none {names : List (Option Str)} (h : w.finds = none :: names) :
    w.find.1 = none ∧ w.find.2.finds = names := by
  rw [World.find, h]
  exact ⟨rfl, rfl⟩

theorem items_wild {e : Str} (hwild : isWild e = true) (names : List Str) (es : List (Str × List Str)) :
    items ((e, names) :: es) = names.map (fun name => (dirPart e, name)) ++ items es ∧
      answers ((e, names) :: es) = names.map some ++ none :: answers es := by
  rw [items, answers, List.flatMap_cons, List.flatMap_cons]
  dsimp only
  rw [if_pos hwild, if_pos hwild, List.append_assoc]
  exact ⟨rfl, rfl⟩

theorem items_plain {e : Str} (hwild : isWild e = false) (names : List Str) (es : List (Str × List Str)) :
    items ((e, names) :: es) = ([], e) :: items es ∧ answers ((e, names) :: es) = answers es := by
  rw [items, answers, List.flatMap_cons, List.flatMap_cons]
  dsimp only
  rw [hwild, if_neg Bool.false_ne_true, if_neg Bool.false_ne_true]
  exact ⟨rfl, rfl⟩

/-- The turn when the next element is to be taken up. -/
theorem Here.element_turn {r : Reading} (h : Here proto forvar after r.shell r.world vals b rest)
    {es : List (Str × List Str)} (helems : b.ctx.elements = es.map Prod.fst) (hffind : b.ctx.ffind = false)
    (hfinds : r.world.finds = answers es ++ after) (hvals : vals = items es) :
    ForNext proto forvar after b.id b.ctx.left (Calm r.world) vals (forTurn b.ctx r) := by
  rw [forTurn]
  dsimp only
  by_cases hleave : r.world.chkCBreak.1 = true ∨ (b.ctx.numParams : ℤ) < b.ctx.shiftlevel
  · rw [if_pos hleave, leave]
    obtain ⟨heq, hgone⟩ := h.leftBehind (Calm r.world) vals (fun hw => by
      have hlt := hleave.resolve_left (by rw [hw.chkCBreak.1]; exact Bool.false_ne_true)
      rw [elements_of_lt hlt] at helems
      rw [hvals, List.map_eq_nil_iff.1 helems.symm]
      rfl)
    rw [heq]
    exact .inr hgone
  · rw [if_neg hleave]
    rw [not_or, not_lt] at hleave
    obtain ⟨fv, hfv, hcons⟩ := elements_of_le h.shiftlevel hleave.2
    obtain ⟨⟨e, names⟩, es', rfl, rfl, htail⟩ : ∃ e es', es = e :: es' ∧ e.1 = fv ∧
        (shift b.ctx).elements = es'.map Prod.fst := by
      rw [hcons] at helems
      cases es with
      | nil => cases helems
      | cons e es' =>
        injection helems with hhead htail
        exact ⟨e, es', rfl, hhead.symm, htail⟩
    have hless : (shift b.ctx).left < b.ctx.left := by
      rw [Context.left, Context.left, hcons]
      exact Nat.lt_succ_self _
    have hcalm : Calm r.world → Calm r.world.chkCBreak.2 := fun hw => hw.chkCBreak.2
    rw [hfv, hffind]
    dsimp only
    rw [if_neg Bool.false_ne_true]
    cases hwild : isWild e with
    | false =>
      obtain ⟨hitems, hans⟩ := items_plain hwild names es'
      obtain ⟨heq, hnext⟩ := h.modify shift rfl rfl rfl
        (by simp only [shift]; omega) (items es') (by
          rw [show r.world.chkCBreak.2.finds = answers es' ++ after from hfinds.trans (by rw [hans])]
          exact .element htail hffind)
      obtain ⟨eflag, hline⟩ := forLine_eq h.forproto h.forvar [] e
        { shell := { r.shell with bc := { b with ctx := shift b.ctx } :: rest }, world := r.world.chkCBreak.2,
          buf := r.buf, len := r.len }
      rw [if_pos (by rw [← isWild, hwild]; rfl), heq, Option.bind_some]
      rw [List.nil_append] at hline
      rw [hline]
      exact ⟨([], e), items es', { b with ctx := shift b.ctx }, rest, hvals.trans hitems, rfl, rfl, hnext,
        hless.le, hcalm⟩
    | true =>
      obtain ⟨hitems, hans⟩ := items_wild hwild names es'
      rw [if_neg (by rw [← isWild, hwild]; decide)]
      rw [hans, List.append_assoc] at hfinds
      cases halloc : r.world.chkCBreak.2.alloc.1 with
      | false =>
        -- no memory for the search
        obtain ⟨heq, hgone⟩ := h.leftBehind (Calm r.world) vals (fun hw => by
          rw [hw.chkCBreak.2.alloc.1] at halloc
          cases halloc)
        rw [Bool.not_false, if_pos rfl, heq]
        exact hgone
      | true =>
        rw [Bool.not_true, if_neg Bool.false_ne_true]
        have hfinds' : r.world.chkCBreak.2.alloc.2.finds = names.map some ++ (none :: answers es' ++ after) :=
          hfinds
        cases names with
        | nil =>
          obtain ⟨hnone, hrest⟩ := find_none hfinds'
          obtain ⟨heq, hnext⟩ := h.modify shift rfl rfl rfl
            (by simp only [shift]; omega) (items es') (by
              rw [hrest]
              exact .element htail hffind)
          rw [hnone]
          dsimp only
          rw [heq]
          rw [hvals, hitems]
          exact .inl ⟨{ b with ctx := shift b.ctx }, rest, rfl, hnext, hless, fun hw => (hcalm hw).alloc.2⟩
        | cons name names =>
          obtain ⟨hsome, hrest⟩ := find_some hfinds'
          obtain ⟨heq, hnext⟩ := h.modify (fun c => { cutParam c (dirPart e) with ffind := true })
            rfl rfl rfl le_rfl (names.map (fun name => (dirPart e, name)) ++ items es') (by
              rw [hrest]
              exact .search ((elements_cutParam hcons _).trans (by rw [htail])) rfl)
          obtain ⟨eflag, hline⟩ := forLine_eq h.forproto h.forvar (dirPart e) name
            { shell := { r.shell with
                bc := { b with ctx := { cutParam b.ctx (dirPart e) with ffind := true } } :: rest },
              world := r.world.chkCBreak.2.alloc.2.find.2, buf := r.buf, len := r.len }
          rw [hsome]
          dsimp only
          rw [heq, Option.bind_some, hline]
          refine ⟨(dirPart e, name), _, { b with ctx := { cutParam b.ctx (dirPart e) with ffind := true } }, rest,
            hvals.trans hitems, rfl, rfl, hnext, ?_, fun hw => (hcalm hw).alloc.2⟩
          rw [Context.left, Context.left, elements_cutParam hcons, hcons]
          exact le_rfl

/-- The turn while a search is on. -/
theorem Here.search_turn {r : Reading} (h : Here proto forvar after r.shell r.world vals b rest)
    {path : Str} {names : List Str} {es : List (Str × List Str)}
    (helems : b.ctx.elements = path :: es.map Prod.fst) (hffind : b.ctx.ffind = true)
    (hfinds : r.world.finds = names.map some ++ none :: (answers es ++ after))
    (hvals : vals = names.map (fun name => (path, name)) ++ items es) :
    ForNext proto forvar after b.id b.ctx.left (Calm r.world) vals (forTurn b.ctx r) := by
  have hle : b.ctx.shiftlevel ≤ b.ctx.numParams := by
    by_contra hlt
    rw [elements_of_lt (not_le.1 hlt)] at helems
    cases helems
  obtain ⟨fv, hfv, hcons⟩ := elements_of_le h.shiftlevel hle
  have hless : ∀ ffind, (shift { b.ctx with ffind := ffind }).left < b.ctx.left := fun ffind => by
    rw [Context.left, Context.left, hcons]
    exact Nat.lt_succ_self _
  rw [hcons] at helems
  injection helems with hpath htail
  subst hpath
  rw [forTurn]
  dsimp only
  by_cases hleave : r.world.chkCBreak.1 = true ∨ (b.ctx.numParams : ℤ) < b.ctx.shiftlevel
  · rw [if_pos hleave, leave]
    obtain ⟨heq, hgone⟩ := h.leftBehind (Calm r.world) vals (fun hw =>
      absurd (hleave.resolve_right (not_lt.2 hle)) (by rw [hw.chkCBreak.1]; exact Bool.false_ne_true))
    rw [heq]
    exact .inr hgone
  · have hcalm : Calm r.world → Calm r.world.chkCBreak.2 := fun hw => hw.chkCBreak.2
    have hfinds' : r.world.chkCBreak.2.finds = names.map some ++ none :: (answers es ++ after) := hfinds
    rw [if_neg hleave, hfv, hffind]
    dsimp only
    rw [if_pos rfl]
    cases names with
    | nil =>
      obtain ⟨hnone, hrest⟩ := find_none hfinds'
      obtain ⟨heq, hnext⟩ := h.modify (fun c => shift { c with ffind := false })
        rfl rfl rfl (by simp only [shift]; omega) (items es) (by
          rw [hrest]
          exact .element htail rfl)
      rw [hnone]
      dsimp only
      rw [heq, hvals]
      exact .inl ⟨{ b with ctx := shift { b.ctx with ffind := false } }, rest, rfl, hnext, hless false, hcalm⟩
    | cons name names =>
      obtain ⟨hsome, hrest⟩ := find_some hfinds'
      obtain ⟨eflag, hline⟩ := forLine_eq h.forproto h.forvar fv name
        { r with world := r.world.chkCBreak.2.find.2 }
      rw [hsome]
      dsimp only
      rw [hline]
      refine ⟨(fv, name), _, b, rest, hvals, rfl, rfl, ⟨h.allocated, h.bc, h.forproto, h.forvar, h.bclose,
        h.shiftlevel, ?_⟩, le_rfl, hcalm⟩
      rw [hrest]
      exact .search (hcons.trans (by rw [htail])) hffind

/-- **A turn delivers the next of what is to come, goes on to the next element, or leaves the
context.** -/
theorem Here.forTurn {r : Reading} (h : Here proto forvar after r.shell r.world vals b rest) :
    ForNext proto forvar after b.id b.ctx.left (Calm r.world) vals (forTurn b.ctx r) := by
  have hpends := h.pends
  generalize hfinds : r.world.finds = finds at hpends
  cases hpends with
  | element helems hffind => exact h.element_turn helems hffind hfinds rfl
  | search helems hffind => exact h.search_turn helems hffind hfinds rfl

end

/-! ## Other contexts -/

/-- The blocks of the chain. -/
def State.ids (s : State) : List ℕ := s.bc.map Block.id

/-- No block is put on the chain. -/
def Within (ids : List ℕ) : Option Turn → Prop
  | none => True
  | some (.again r) => r.shell.ids <:+ ids
  | some (.done _ r) => r.shell.ids <:+ ids

theorem modify_ids {s s' : State} {f : Context → Context} (h : s.modify f = some s') : s'.ids = s.ids := by
  obtain ⟨b, rest, hbc, hbc'⟩ := modify_bc h
  rw [State.ids, State.ids, hbc, hbc']
  rfl

theorem exitBatch_ids {s s' : State} (h : exitBatch s = some s') : s'.ids <:+ s.ids := by
  rw [exitBatch] at h
  split at h
  · rw [Option.some.inj h]
  · rw [State.top] at h
    cases hbc : s.bc with
    | nil => rw [hbc] at h; cases h
    | cons b rest =>
      rw [hbc] at h
      dsimp only at h
      split at h
      · cases h
      · rw [← Option.some.inj h, State.ids, State.ids, hbc]
        exact List.suffix_cons _ _

theorem Within.modify {s : State} {f : Context → Context} {g : State → Option Turn} {ids : List ℕ}
    (hs : s.ids <:+ ids) (hg : ∀ s' : State, s'.ids <:+ ids → Within ids (g s')) :
    Within ids ((s.modify f).bind g) := by
  cases heq : s.modify f with
  | none => trivial
  | some s' => exact hg s' (modify_ids heq ▸ hs)

theorem Within.modify_map {s : State} {f : Context → Context} {g : State → Turn} {ids : List ℕ}
    (hs : s.ids <:+ ids) (hg : ∀ s' : State, s'.ids <:+ ids → Within ids (some (g s'))) :
    Within ids ((s.modify f).map g) := by
  cases heq : s.modify f with
  | none => trivial
  | some s' => exact hg s' (modify_ids heq ▸ hs)

theorem Within.exit {s : State} {g : State → Turn} {ids : List ℕ} (hs : s.ids <:+ ids)
    (hg : ∀ s' : State, s'.ids <:+ ids → Within ids (some (g s'))) : Within ids ((exitBatch s).map g) := by
  cases heq : exitBatch s with
  | none => trivial
  | some s' => exact hg s' ((exitBatch_ids heq).trans hs)

theorem leave_within {r : Reading} {ids : List ℕ} (h : r.shell.ids <:+ ids) : Within ids (leave r) :=
  .exit h fun _ hs => hs

theorem forLine_within (c : Context) (value : Str) {r : Reading} {ids : List ℕ} (h : r.shell.ids <:+ ids) :
    Within ids (forLine c value r) := by
  rw [forLine]
  split
  · exact h
  · trivial

theorem forTurn_within (c : Context) {r : Reading} {ids : List ℕ} (h : r.shell.ids <:+ ids) :
    Within ids (forTurn c r) := by
  rw [forTurn]
  dsimp only
  split
  · exact leave_within h
  · split
    · trivial
    · split
      · split
        · exact .modify_map h fun _ hs => hs
        · exact forLine_within _ _ h
      · split
        · exact .modify h fun _ hs => forLine_within _ _ hs
        · split
          · exact .exit h fun _ hs => hs
          · split
            · exact .modify_map h fun _ hs => hs
            · exact .modify h fun _ hs => forLine_within _ _ hs

theorem takeLine_within (c : Context) (line : Str) {r : Reading} {ids : List ℕ} (h : r.shell.ids <:+ ids) :
    Within ids (takeLine c line r) := by
  rw [takeLine]
  dsimp only
  split
  · exact h
  · split
    · split
      · exact h
      · split
        · exact .modify_map h fun _ hs => hs
        · exact h
    · split
      · exact h
      · exact h

theorem lineTurn_within (name : Str) {r : Reading} (size : ℕ) {ids : List ℕ} (h : r.shell.ids <:+ ids) :
    Within ids (lineTurn name r size) := by
  rw [lineTurn]
  split
  · trivial
  · dsimp only
    split
    · exact leave_within h
    · split
      · trivial
      · next hmod =>
        have hs := (modify_ids hmod).symm ▸ h
        split
        · exact leave_within hs
        · split
          · exact leave_within hs
          · split
            · trivial
            · exact .modify hs fun _ hs => takeLine_within _ _ hs

theorem turn_within (size : ℕ) {r : Reading} {ids : List ℕ} (h : r.shell.ids <:+ ids) :
    Within ids (turn size r) := by
  rw [turn]
  split
  · exact h
  · split
    · trivial
    · split
      · exact forTurn_within _ h
      · rw [batchTurn]
        split
        · trivial
        · split
          · dsimp only
            split
            · exact leave_within h
            · exact .modify h fun _ hs => lineTurn_within _ _ hs
          · exact .modify h fun _ hs => lineTurn_within _ _ hs

theorem loop_within (size : ℕ) {ids : List ℕ} : ∀ {fuel : ℕ} {r : Reading} {line : Option (Str × ℕ)}
    {r' : Reading}, r.shell.ids <:+ ids → loop size fuel r = some (line, r') → r'.shell.ids <:+ ids
  | 0, _, _, _, _, h => by cases h
  | fuel + 1, r, line, r', hr, h => by
    have hturn := turn_within size hr
    rw [loop] at h
    cases hnext : turn size r with
    | none => rw [hnext] at h; cases h
    | some t =>
      rw [hnext] at h hturn
      cases t with
      | done line' r₁ =>
        cases h
        exact hturn
      | again r₁ => exact loop_within size hturn h

theorem closeBatch_ids {s s' : State} (h : closeBatch s = some s') : s'.ids = s.ids := by
  rw [closeBatch] at h
  split at h
  · rw [Option.some.inj h]
  · split at h
    · exact modify_ids h
    · rw [Option.some.inj h]

/-! ## A call -/

/-- What a call comes to: the next line, or the context is left. -/
def Delivered (proto forvar : Str) (after : List (Option Str)) (id n : ℕ) (calm : Prop)
    (vals : List (Str × Str)) (result : Option (Option (Str × ℕ) × State × World)) : Prop :=
  (∃ v vs line s w b rest, result = some (some line, s, w) ∧ vals = v :: vs ∧
      line.1 = lineOf proto forvar v ∧ b.id = id ∧ Here proto forvar after s w vs b rest ∧ b.ctx.left ≤ n ∧
      (calm → Calm w)) ∨
    ((calm → vals = []) ∧ ∀ line s w, result = some (line, s, w) → id ∉ s.ids)

section

variable {proto forvar : Str} {after : List (Option Str)} {vals : List (Str × Str)}

theorem Here.turn {r : Reading} {b : Block} {rest : List Block}
    (h : Here proto forvar after r.shell r.world vals b rest) (size : ℕ) :
    turn size r = Shell.forTurn b.ctx r := by
  rw [Shell.turn, if_neg (by rw [h.bc]; exact List.cons_ne_nil b rest), h.allocated.top h.bc]
  dsimp only
  rw [if_pos (by rw [h.forvar]; exact Option.some_ne_none _)]

theorem loop_for (size : ℕ) : ∀ (fuel : ℕ) {r : Reading} {b : Block} {rest : List Block},
    Here proto forvar after r.shell r.world vals b rest → b.ctx.left < fuel →
    Delivered proto forvar after b.id b.ctx.left (Calm r.world) vals
      ((loop size fuel r).map fun p => (p.1, p.2.shell, p.2.world))
  | 0, _, _, _, _, hfuel => absurd hfuel (Nat.not_lt_zero _)
  | fuel + 1, r, b, rest, h, hfuel => by
    have hnext := h.forTurn
    rw [loop, h.turn size]
    cases hturn : Shell.forTurn b.ctx r with
    | none => rw [hturn] at hnext; exact hnext.elim
    | some t =>
      rw [hturn] at hnext
      cases t with
      | done line r' =>
        cases line with
        | none =>
          refine .inr ⟨hnext.2, fun line s w heq => ?_⟩
          cases heq
          exact hnext.1
        | some line =>
          obtain ⟨v, vs, b', rest', hvals, hline, hid, hhere, hleft, hcalm⟩ := hnext
          exact .inl ⟨v, vs, line, _, _, b', rest', rfl, hvals, hline, hid, hhere, hleft, hcalm⟩
      | again r' =>
        dsimp only
        rcases hnext with ⟨b', rest', hid, hhere, hleft, hcalm⟩ | ⟨hgone, hvals⟩
        · rcases loop_for size fuel hhere (by omega) with
            ⟨v, vs, line, s, w, b'', rest'', heq, hvals, hline, hid', hhere', hleft', hcalm'⟩ | ⟨hvals, hgone⟩
          · exact .inl ⟨v, vs, line, s, w, b'', rest'', heq, hvals, hline, hid'.trans hid, hhere', by omega,
              fun hw => hcalm' (hcalm hw)⟩
          · exact .inr ⟨fun hw => hvals (hcalm hw), hid ▸ hgone⟩
        · -- what other contexts deliver leaves none with this block
          refine .inr ⟨hvals, fun line s w heq => ?_⟩
          obtain ⟨⟨line', r''⟩, hloop, heq⟩ := Option.map_eq_some_iff.1 heq
          cases heq
          exact fun hmem => hgone ((loop_within size List.suffix_rfl hloop).subset hmem)

/-- **A call delivers the next of what is to come, or leaves the context.** -/
theorem readbatchline_for (size : ℕ) (buf : Buf) {s : State} {w : World} {b : Block} {rest : List Block}
    (h : Here proto forvar after s w vals b rest) {fuel : ℕ} (hfuel : b.ctx.left < fuel) :
    Delivered proto forvar after b.id b.ctx.left (Calm w) vals (readbatchline fuel size buf s w) := by
  have hloop := loop_for size _ (r := ⟨s, w, buf, 0⟩) h hfuel
  rw [readbatchline]
  cases heq : loop size fuel ⟨s, w, buf, 0⟩ with
  | none => exact .inr ⟨fun hw => (hloop.resolve_left (by simp [heq])).1 hw, fun _ _ _ h => by cases h⟩
  | some p =>
    obtain ⟨line, r⟩ := p
    rw [heq, Option.map_some] at hloop
    dsimp only at hloop ⊢
    rcases hloop with ⟨v, vs, line', s', w', b', rest', hres, hvals, hline, hid, hhere, hleft, hcalm⟩ |
      ⟨hvals, hgone⟩
    · cases hres
      have hclose : closeBatch r.shell = some r.shell := by
        rw [closeBatch, hhere.bc]
        dsimp only
        rw [hhere.bclose, if_neg Bool.false_ne_true]
      rw [hclose]
      exact .inl ⟨v, vs, line', _, _, b', rest', rfl, hvals, hline, hid, hhere, hleft, hcalm⟩
    · refine .inr ⟨hvals, fun line' s' w' hres => ?_⟩
      obtain ⟨s₁, hclose, heq'⟩ := Option.map_eq_some_iff.1 hres
      cases heq'
      rw [closeBatch_ids hclose]
      exact hgone _ _ _ rfl

end

/-! ## Successive calls -/

/-- The lines of `n` calls, as long as the context of block `id` is at `bc` behind each of them;
between two calls the line is executed. -/
def produced (fuel size id : ℕ) (buf : ℕ → Buf) (execute : Str → State → World → State × World) :
    ℕ → State → World → List Str
  | 0, _, _ => []
  | n + 1, s, w =>
    match readbatchline fuel size (buf n) s w with
    | some (some line, s, w) =>
      if s.bc.head?.map Block.id = some id then
        line.1 :: produced fuel size id buf execute n (execute line.1 s w).1 (execute line.1 s w).2
      else []
    | _ => []

/-- What is executed leaves the context of block `id` at `bc` as it is, and the search of it. -/
def Spares (id : ℕ) (execute : Str → State → World → State × World) : Prop :=
  ∀ line s w b rest, Allocated s → s.bc = b :: rest → b.id = id →
    Allocated (execute line s w).1 ∧ (∃ rest', (execute line s w).1.bc = b :: rest') ∧
      (execute line s w).2.finds = w.finds

/-- Nothing that is executed brings a user break or uses up the memory. -/
def StaysCalm (execute : Str → State → World → State × World) : Prop :=
  ∀ line s w, Calm w → Calm (execute line s w).2

theorem produced_here {proto forvar : Str} {after : List (Option Str)} {fuel size id : ℕ} {buf : ℕ → Buf}
    {execute : Str → State → World → State × World} (hspares : Spares id execute) : ∀ {n : ℕ} {s : State}
    {w : World} {vals : List (Str × Str)} {b : Block} {rest : List Block},
    Here proto forvar after s w vals b rest → b.id = id → b.ctx.left < fuel →
    produced fuel size id buf execute n s w <+: vals.map (lineOf proto forvar) ∧
      (Calm w → StaysCalm execute →
        produced fuel size id buf execute n s w = (vals.map (lineOf proto forvar)).take n)
  | 0, _, _, _, _, _, _, _, _ => ⟨List.nil_prefix, fun _ _ => rfl⟩
  | n + 1, s, w, vals, b, rest, h, hid, hfuel => by
    have hcall := readbatchline_for size (buf n) h hfuel
    rw [produced]
    rcases hcall with ⟨v, vs, line, s', w', b', rest', heq, rfl, hline, hid', hhere, hleft, hcalm⟩ |
      ⟨hvals, hgone⟩
    · obtain ⟨halloc, ⟨rest'', hbc⟩, hfinds⟩ :=
        hspares line.1 s' w' b' rest' hhere.allocated hhere.bc (hid'.trans hid)
      have hnext : Here proto forvar after (execute line.1 s' w').1 (execute line.1 s' w').2 vs b' rest'' :=
        ⟨halloc, hbc, hhere.forproto, hhere.forvar, hhere.bclose, hhere.shiftlevel, by
          rw [hfinds]
          exact hhere.pends⟩
      have hless : b'.ctx.left < fuel := lt_of_le_of_lt hleft hfuel
      obtain ⟨hpre, hall⟩ := produced_here hspares (n := n) hnext (hid'.trans hid) hless
      rw [heq]
      dsimp only
      rw [hhere.bc, List.head?_cons, Option.map_some, if_pos (by rw [hid', hid]), hline, List.map_cons]
      refine ⟨(List.cons_prefix_cons).2 ⟨rfl, hline ▸ hpre⟩, fun hw hstays => ?_⟩
      rw [List.take_succ_cons, ← hall (hstays _ _ _ (hcalm hw)) hstays, hline]
    · have hnil : produced fuel size id buf execute (n + 1) s w = [] := by
        rw [produced]
        split
        · next line s' w' heq =>
          rw [if_neg]
          intro hhead
          refine hgone _ _ _ heq ?_
          obtain ⟨b', hb', hid'⟩ := Option.map_eq_some_iff.1 hhead
          exact List.mem_map.2 ⟨b', List.mem_of_mem_head? hb', hid'.trans hid.symm⟩
        · rfl
      rw [produced] at hnil
      rw [hnil]
      refine ⟨List.nil_prefix, fun hw _ => ?_⟩
      rw [hvals hw, List.map_nil, List.take_nil]

/-! ## FOR -/

/-- The context of a FOR command. -/
def forContext (f : ForCommand) (echo : ℕ) : Context :=
  { initContext with
    echo := echo, forproto := some f.proto, forvar := some f.varname, params := some f.params
    shiftlevel := 1, forFlags := f.flags }

/-- **The calls of `readbatchline` deliver the lines of a FOR context in order**, from its first
line on as long as it is not broken off, and all of them if it is not; each line is the prototype
with the variable replaced, less a leading at-sign, and one that fits is stored inside the
buffer.  One that does not fit is delivered as well, in spite of what it has been stored over. -/
theorem produced_lines {f : ForCommand} (hvar : f.varname ≠ []) {es : List (Str × List Str)}
    (hes : f.params = es.map Prod.fst) {echo id : ℕ} {s : State} {w : World} {rest : List Block}
    (hs : Allocated s) (hbc : s.bc = ⟨id, forContext f echo⟩ :: rest) {after : List (Option Str)}
    (hfinds : w.finds = answers es ++ after) {fuel : ℕ} (hfuel : f.params.length < fuel) (size : ℕ)
    (buf : ℕ → Buf) {execute : Str → State → World → State × World} (hspares : Spares id execute) (n : ℕ) :
    produced fuel size id buf execute n s w <+: (items es).map (lineOf f.proto f.varname) ∧
      (Calm w → StaysCalm execute →
        produced fuel size id buf execute n s w = ((items es).map (lineOf f.proto f.varname)).take n) ∧
      ∀ item : Str × Str,
        Replaced f.varname (item.1 ++ item.2) f.proto (expandTo f.varname item.1 item.2 f.proto).text ∧
          ((expandTo f.varname item.1 item.2 f.proto).text.length < size →
            (expandTo f.varname item.1 item.2 f.proto).stored ≤ size) := by
  have hhere : Here f.proto f.varname after s w (items es) ⟨id, forContext f echo⟩ rest :=
    ⟨hs, hbc, rfl, rfl, rfl, Int.one_pos, by
      rw [hfinds]
      exact .element hes rfl⟩
  obtain ⟨hpre, hall⟩ := produced_here hspares (n := n) hhere rfl hfuel
  refine ⟨hpre, hall, fun item => ?_⟩
  obtain ⟨htext, hstored⟩ := expandTo_spec f.varname item.1 item.2 f.proto
  refine ⟨?_, fun hfits => by omega⟩
  rw [htext]
  exact replaced_expandProto hvar _ le_rfl

/-- `FOR %x IN (y d\*.t) DO a%x` -/
def forAX : ForCommand := ⟨[97, 37, 120], [37, 120], [[121], [100, 92, 42, 46, 116]], 0⟩

/-- The shell with the context of a FOR command at `bc`. -/
def startedFor (f : ForCommand) : State := ⟨[⟨0, forContext f 1⟩], 1, [], 1, 0⟩

theorem startedFor_allocated (f : ForCommand) : Allocated (startedFor f) where
  nodup := List.nodup_singleton _
  live _ _ := List.not_mem_nil
  fresh b hb := by rw [List.mem_singleton.1 hb]; exact Nat.one_pos
  old _ hi := absurd hi List.not_mem_nil

/-- In `d` there are `p` and `q`. -/
theorem produced_lines_three :
    let w : World := ⟨[], [], [], [some [112], some [113], none], fun _ => []⟩
    produced 3 256 0 (fun _ _ => 0) (fun _ s w => (s, w)) 5 (startedFor forAX) w =
      [[97, 121], [97, 100, 92, 112], [97, 100, 92, 113]] := by
  intro w
  have hcalm : Calm w :=
    ⟨fun _ hx => absurd hx List.not_mem_nil, fun _ hx => absurd hx List.not_mem_nil⟩
  have hlines := (@produced_lines forAX (by decide)
    [([121], []), ([100, 92, 42, 46, 116], [[112], [113]])] rfl _ 0 _ w [] (startedFor_allocated forAX)
    rfl [] rfl 3 (by decide) 256 (fun _ _ => 0) (fun _ s w => (s, w))
    (fun _ s w b rest hs hbc _ => ⟨hs, ⟨rest, hbc⟩, rfl⟩) 5).2.1 hcalm (fun _ _ _ hw => hw)
  rw [hlines]
  decide

/-- `FOR %x IN (y) DO @a` delivers `a`, which is not the prototype. -/
theorem at_sign_taken_off : (readbatchline 2 256 (fun _ => 0)
    (startedFor ⟨[64, 97], [37, 120], [[121]], 0⟩) ⟨[], [], [], [], fun _ => []⟩).map (·.1) =
      some (some ([97], 0)) ∧ ¬ Replaced [37, 120] [121] [64, 97] [97] := by
  refine ⟨by decide, fun h => ?_⟩
  cases h

end Shell
end BurdahDos
