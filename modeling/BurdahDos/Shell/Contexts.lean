import BurdahDos.Shell.Read
import BurdahDos.Lib.Run
import Mathlib

/-!
# The chain of contexts

Between two commands every context on the chain should be an allocated block, and one of a FOR
command or of a batch file.  `contexts_wellFormed`: so it is as long as CALL, which removes a
context by one name and frees it by another one, calls only what leaves the context it has made, or
turns that into one of a batch file.
-/

set_option autoImplicit false

namespace BurdahDos
namespace Shell

/-! ## Kinds of contexts -/

/-- The context of a FOR command, whose parameters are counted from one. -/
structure IsFor (c : Context) : Prop where
  forvar : c.forvar ≠ none
  forproto : c.forproto ≠ none
  params : c.params ≠ none
  shiftlevel : 0 < c.shiftlevel

/-- The context of a batch file. -/
structure IsBatch (c : Context) : Prop where
  forvar : c.forvar = none
  bfnam : c.bfnam ≠ none
  bfirst : c.bfirst ≠ none
  params : c.params ≠ none

/-- A context that nothing has been put into but a label. -/
structure IsEmpty (c : Context) : Prop where
  forvar : c.forvar = none
  bfile : c.bfile = none
  bfnam : c.bfnam = none

/-- A context is one of the two kinds. -/
def Kind (c : Context) : Prop := IsFor c ∨ IsBatch c

/-- **The chain is well formed**: its contexts are allocated, and of one of the kinds. -/
def WellFormed (s : State) : Prop := ∀ b ∈ s.bc, b.id ∉ s.freed ∧ Kind b.ctx

/-- The blocks of the chain are allocated, and none of them is on it twice. -/
structure Allocated (s : State) : Prop where
  nodup : (s.bc.map Block.id).Nodup
  live : ∀ b ∈ s.bc, b.id ∉ s.freed
  fresh : ∀ b ∈ s.bc, b.id < s.next
  old : ∀ i ∈ s.freed, i < s.next

/-- What holds of the shell between two commands. -/
structure Sound (s : State) : Prop where
  allocated : Allocated s
  kinds : ∀ b ∈ s.bc, Kind b.ctx

theorem Sound.wellFormed {s : State} (h : Sound s) : WellFormed s := fun b hb =>
  ⟨h.allocated.live b hb, h.kinds b hb⟩

/-! ## Operations on the chain -/

theorem Allocated.top {s : State} (h : Allocated s) {b : Block} {rest : List Block}
    (hbc : s.bc = b :: rest) : s.top = some (b, rest) := by
  rw [State.top, hbc]
  exact if_neg (h.live b (hbc ▸ List.mem_cons_self))

theorem Allocated.modify {s : State} (h : Allocated s) {b : Block} {rest : List Block}
    (hbc : s.bc = b :: rest) (f : Context → Context) :
    s.modify f = some { s with bc := { b with ctx := f b.ctx } :: rest } ∧
      Allocated { s with bc := { b with ctx := f b.ctx } :: rest } := by
  refine ⟨by rw [State.modify, h.top hbc]; rfl, ?_, ?_, ?_, h.old⟩
  · have hnodup := h.nodup
    rw [hbc] at hnodup
    exact hnodup
  · intro b' hb'
    rcases List.mem_cons.mp hb' with rfl | hb'
    · exact h.live b (hbc ▸ List.mem_cons_self)
    · exact h.live b' (hbc ▸ List.mem_cons_of_mem _ hb')
  · intro b' hb'
    rcases List.mem_cons.mp hb' with rfl | hb'
    · exact h.fresh b (hbc ▸ List.mem_cons_self)
    · exact h.fresh b' (hbc ▸ List.mem_cons_of_mem _ hb')

/-- A block is taken off the chain and freed. -/
theorem Allocated.pop {s : State} (h : Allocated s) {b : Block} {rest : List Block}
    (hbc : s.bc = b :: rest) (echo : ℕ) :
    Allocated { s with bc := rest, freed := b.id :: s.freed, echo := echo } := by
  have hnodup := h.nodup
  rw [hbc, List.map_cons, List.nodup_cons] at hnodup
  refine ⟨hnodup.2, fun b' hb' => ?_, fun b' hb' => h.fresh b' (hbc ▸ List.mem_cons_of_mem _ hb'), ?_⟩
  · rw [List.mem_cons, not_or]
    refine ⟨fun heq => hnodup.1 (heq ▸ List.mem_map_of_mem hb'), ?_⟩
    exact h.live b' (hbc ▸ List.mem_cons_of_mem _ hb')
  · intro i hi
    rcases List.mem_cons.mp hi with rfl | hi
    · exact h.fresh b (hbc ▸ List.mem_cons_self)
    · exact h.old i hi

theorem Allocated.exitBatch {s : State} (h : Allocated s) {b : Block} {rest : List Block}
    (hbc : s.bc = b :: rest) :
    exitBatch s = some { s with bc := rest, freed := b.id :: s.freed, echo := b.ctx.echo } ∧
      Allocated { s with bc := rest, freed := b.id :: s.freed, echo := b.ctx.echo } := by
  refine ⟨?_, h.pop hbc _⟩
  rw [Shell.exitBatch, if_neg (by rw [hbc]; exact List.cons_ne_nil b rest), h.top hbc]
  rfl

/-- A new block is put on the chain. -/
theorem Allocated.push {s : State} (h : Allocated s) (c : Context) :
    Allocated { s with bc := ⟨s.next, c⟩ :: s.bc, next := s.next + 1 } := by
  refine ⟨?_, ?_, ?_, fun i hi => Nat.lt_succ_of_lt (h.old i hi)⟩
  · rw [List.map_cons, List.nodup_cons]
    refine ⟨fun hmem => ?_, h.nodup⟩
    obtain ⟨b, hb, heq⟩ := List.mem_map.mp hmem
    exact Nat.ne_of_lt (h.fresh b hb) heq
  · intro b hb
    rcases List.mem_cons.mp hb with rfl | hb
    · exact fun hfreed => Nat.lt_irrefl _ (h.old _ hfreed)
    · exact h.live b hb
  · intro b hb
    rcases List.mem_cons.mp hb with rfl | hb
    · exact Nat.lt_succ_self _
    · exact Nat.lt_succ_of_lt (h.fresh b hb)

theorem IsFor.of_kind {c : Context} (h : Kind c) (hfor : c.forvar ≠ none) : IsFor c :=
  h.resolve_right fun hbatch => hfor hbatch.forvar

theorem IsBatch.of_kind {c : Context} (h : Kind c) (hfor : c.forvar = none) : IsBatch c :=
  h.resolve_left fun hfor' => hfor'.forvar hfor

theorem Sound.modify {s : State} (h : Sound s) {b : Block} {rest : List Block} (hbc : s.bc = b :: rest)
    {f : Context → Context} (hf : Kind (f b.ctx)) :
    s.modify f = some { s with bc := { b with ctx := f b.ctx } :: rest } ∧
      Sound { s with bc := { b with ctx := f b.ctx } :: rest } := by
  obtain ⟨heq, halloc⟩ := h.allocated.modify hbc f
  refine ⟨heq, halloc, fun b' hb' => ?_⟩
  rcases List.mem_cons.mp hb' with rfl | hb'
  · exact hf
  · exact h.kinds b' (hbc ▸ List.mem_cons_of_mem _ hb')

theorem Sound.exitBatch {s : State} (h : Sound s) {b : Block} {rest : List Block}
    (hbc : s.bc = b :: rest) :
    Shell.exitBatch s = some { s with bc := rest, freed := b.id :: s.freed, echo := b.ctx.echo } ∧
      Sound { s with bc := rest, freed := b.id :: s.freed, echo := b.ctx.echo } := by
  obtain ⟨heq, halloc⟩ := h.allocated.exitBatch hbc
  exact ⟨heq, halloc, fun b' hb' => h.kinds b' (hbc ▸ List.mem_cons_of_mem _ hb')⟩

/-- The FOR contexts in front are taken off. -/
theorem exitFors_allocated {s : State} (h : Allocated s) :
    ∃ s', exitFors s.bc s = some s' ∧ Allocated s' ∧
      s'.bc = s.bc.dropWhile (fun b => b.ctx.forvar.isSome) := by
  generalize hl : s.bc = l
  induction l generalizing s with
  | nil => exact ⟨s, rfl, h, hl⟩
  | cons b rest ih =>
    rw [exitFors, if_neg (h.live b (hl ▸ List.mem_cons_self))]
    cases hfor : b.ctx.forvar with
    | none => exact ⟨s, rfl, h, by rw [List.dropWhile_cons, hfor, hl]; rfl⟩
    | some v =>
      obtain ⟨heq, halloc⟩ := h.exitBatch hl
      obtain ⟨s', hrun, hs', hbc⟩ := ih halloc rfl
      refine ⟨s', ?_, hs', ?_⟩
      · rw [if_neg (Option.some_ne_none v), heq]
        exact hrun
      · rw [List.dropWhile_cons, hfor]
        exact hbc

theorem Sound.exitFors {s : State} (h : Sound s) :
    ∃ s', Shell.exitFors s.bc s = some s' ∧ Sound s' ∧
      s'.bc = s.bc.dropWhile (fun b => b.ctx.forvar.isSome) := by
  obtain ⟨s', hrun, halloc, hbc⟩ := exitFors_allocated h.allocated
  refine ⟨s', hrun, ⟨halloc, fun b hb => h.kinds b ?_⟩, hbc⟩
  rw [hbc] at hb
  exact (List.dropWhile_suffix _).subset hb

/-! ## Commands other than CALL -/

/-- What a command without CALL leaves: a sound shell. -/
def Leaves (r : Option (State × World)) : Prop := ∃ s w, r = some (s, w) ∧ Sound s

theorem Leaves.exit {s : State} (h : Sound s) (w : World) : Leaves ((exitBatch s).map (·, w)) := by
  cases hbc : s.bc with
  | nil => exact ⟨s, w, by rw [exitBatch, if_pos hbc]; rfl, h⟩
  | cons b rest =>
    obtain ⟨heq, hs⟩ := h.exitBatch hbc
    exact ⟨_, w, by rw [heq]; rfl, hs⟩

/-- A new context is left again, so that only those behind it must be of a kind. -/
theorem Leaves.exit_top {s : State} (h : Allocated s) {b : Block} {rest : List Block}
    (hbc : s.bc = b :: rest) (hrest : ∀ b ∈ rest, Kind b.ctx) (w : World) :
    Leaves ((exitBatch s).map (·, w)) := by
  obtain ⟨heq, halloc⟩ := h.exitBatch hbc
  exact ⟨_, w, by rw [heq]; rfl, halloc, hrest⟩

theorem Leaves.modify_top {s : State} (h : Allocated s) {b : Block} {rest : List Block}
    (hbc : s.bc = b :: rest) (hrest : ∀ b ∈ rest, Kind b.ctx) {f : Context → Context}
    (hf : Kind (f b.ctx)) (w : World) : Leaves ((s.modify f).map (·, w)) := by
  obtain ⟨heq, halloc⟩ := h.modify hbc f
  refine ⟨_, w, by rw [heq]; rfl, halloc, fun b' hb' => ?_⟩
  rcases List.mem_cons.mp hb' with rfl | hb'
  · exact hf
  · exact hrest b' hb'

/-- The shell with an empty context put on the chain. -/
def State.pushed (s : State) : State :=
  { s with bc := ⟨s.next, { initContext with echo := s.echo }⟩ :: s.bc, next := s.next + 1 }

/-- Memory can be had for a request. -/
def World.canAlloc (w : World) : Bool := w.alloc.1

/-- There is memory for all of the next `n` requests. -/
def World.enough (w : World) : ℕ → Bool
  | 0 => true
  | n + 1 => w.canAlloc && w.alloc.2.enough n

theorem newBatchContext_ok (s : State) {w : World} (h : w.canAlloc = true) :
    newBatchContext s w = (some s.pushed, w.alloc.2) := by
  rw [newBatchContext, show w.alloc.1 = true from h]
  rfl

theorem newBatchContext_fail (s : State) {w : World} (h : w.canAlloc = false) :
    newBatchContext s w = (none, w.alloc.2) := by
  rw [newBatchContext, show w.alloc.1 = false from h]
  rfl

theorem Allocated.pushed {s : State} (h : Allocated s) : Allocated s.pushed := h.push _

theorem doFor_leaves {s : State} (h : Sound s) (f : ForCommand) (w : World) : Leaves (doFor f s w) := by
  rw [doFor]
  cases hw : w.canAlloc with
  | false =>
    rw [newBatchContext_fail s hw]
    exact ⟨s, _, rfl, h⟩
  | true =>
    have hpush := h.allocated.pushed
    rw [newBatchContext_ok s hw]
    dsimp only
    split
    · exact .exit_top hpush rfl h.kinds _
    · split
      · exact .exit_top hpush rfl h.kinds _
      · split
        · exact .exit_top hpush rfl h.kinds _
        · exact .modify_top hpush rfl h.kinds
            (Or.inl ⟨Option.some_ne_none _, Option.some_ne_none _, Option.some_ne_none _, Int.one_pos⟩) _

theorem Kind.label {c : Context} (h : Kind c) (brewind : Bool) (blabel : Option Str) :
    Kind { c with brewind := brewind, blabel := blabel } := by
  rcases h with h | h
  · exact Or.inl ⟨h.forvar, h.forproto, h.params, h.shiftlevel⟩
  · exact Or.inr ⟨h.forvar, h.bfnam, h.bfirst, h.params⟩

theorem cmdGoto_leaves {s : State} (h : Sound s) (label : Str) (w : World) :
    Leaves (cmdGoto label s w) := by
  obtain ⟨s', hrun, hs', -⟩ := h.exitFors
  rw [cmdGoto, hrun]
  dsimp only
  split
  · exact ⟨s', w, rfl, hs'⟩
  · rename_i hbc
    split
    · exact .exit hs' w
    · split
      · exact ⟨s', _, rfl, hs'⟩
      · obtain ⟨b, rest, hbc⟩ := List.exists_cons_of_ne_nil hbc
        have hkind := hs'.kinds b (hbc ▸ List.mem_cons_self)
        exact .modify_top hs'.allocated hbc (fun b' hb' => hs'.kinds b' (hbc ▸ List.mem_cons_of_mem _ hb'))
          (hkind.label true (some label)) _

/-- `startBatch` makes the context at `bc` one of a batch file, or takes it off if memory runs
out. -/
theorem startBatch_spec {s : State} (h : Allocated s) {b : Block} {rest : List Block}
    (hbc : s.bc = b :: rest) (hfor : b.ctx.forvar = none) (fullname firstword : Str)
    (params : List Str) (w : World) :
    ∃ s' w', startBatch fullname firstword params s w = some (s', w') ∧ Allocated s' ∧
      if w.enough 2 then ∃ c, s'.bc = ⟨b.id, c⟩ :: rest ∧ IsBatch c else s'.bc = rest := by
  obtain ⟨hexit, hpop⟩ := h.exitBatch hbc
  rw [startBatch]
  cases hfirst : w.alloc.1 with
  | false =>
    refine ⟨_, w.alloc.2, by simp [hexit, hfirst], hpop, ?_⟩
    simp [World.enough, World.canAlloc, hfirst]
  | true =>
    cases hsplit : w.alloc.2.alloc.1 with
    | false =>
      refine ⟨_, w.alloc.2.alloc.2, by simp [hexit, hfirst, hsplit], hpop, ?_⟩
      simp [World.enough, World.canAlloc, hfirst, hsplit]
    | true =>
      obtain ⟨heq, halloc⟩ := h.modify hbc fun c => { c with
        bfnam := some fullname, bfirst := some firstword, params := some params }
      refine ⟨_, w.alloc.2.alloc.2, by simp [heq, hfirst, hsplit], halloc, ?_⟩
      simp only [World.enough, World.canAlloc, hfirst, hsplit, Bool.and_self, if_true]
      exact ⟨_, rfl, hfor, Option.some_ne_none _, Option.some_ne_none _, Option.some_ne_none _⟩

/-- A batch file is started in the context at `bc`, whatever that is. -/
theorem startBatch_leaves {s : State} (h : Allocated s) {b : Block} {rest : List Block}
    (hbc : s.bc = b :: rest) (hrest : ∀ b ∈ rest, Kind b.ctx) (hfor : b.ctx.forvar = none)
    (fullname firstword : Str) (params : List Str) (w : World) :
    Leaves (startBatch fullname firstword params s w) := by
  obtain ⟨s', w', hrun, halloc, hspec⟩ := startBatch_spec h hbc hfor fullname firstword params w
  refine ⟨s', w', hrun, halloc, ?_⟩
  split at hspec
  · obtain ⟨c, hbc', hbatch⟩ := hspec
    intro b' hb'
    rw [hbc'] at hb'
    rcases List.mem_cons.mp hb' with rfl | hb'
    · exact Or.inr hbatch
    · exact hrest b' hb'
  · rwa [hspec]

theorem batch_leaves {s : State} (h : Sound s) (fullname : Option Str) (firstword : Str)
    (params : List Str) (w : World) : Leaves (batch fullname firstword params s w) := by
  cases fullname with
  | none => exact ⟨s, w, rfl, h⟩
  | some fullname =>
    obtain ⟨s', hrun, hs', -⟩ := h.exitFors
    rw [batch, hrun]
    dsimp only
    split
    · cases hw : w.canAlloc with
      | false =>
        rw [newBatchContext_fail s' hw]
        exact ⟨s', _, rfl, hs'⟩
      | true =>
        rw [newBatchContext_ok s' hw]
        exact startBatch_leaves hs'.allocated.pushed rfl hs'.kinds rfl _ _ _ _
    · rename_i hbc
      obtain ⟨b, rest, hbc⟩ := List.exists_cons_of_ne_nil hbc
      obtain ⟨heq, halloc⟩ := hs'.allocated.modify hbc fun c => { initContext with echo := c.echo }
      rw [heq]
      exact startBatch_leaves halloc rfl
        (fun b' hb' => hs'.kinds b' (hbc ▸ List.mem_cons_of_mem _ hb')) rfl _ _ _ _

theorem docommand_leaves {s : State} (h : Sound s) {func : State → World → Option (State × World)}
    (hfunc : ∀ w, Leaves (func s w)) (w : World) : Leaves (docommand func s w) := by
  rw [docommand]
  dsimp only
  split
  · exact ⟨s, _, rfl, h⟩
  · exact hfunc _

/-! ## CALL -/

/-- With an empty context in front, a command leaves just that, whatever is behind it. -/
def Keeps : Command → World → Prop
  | .other, _ => True
  | .for none, _ => True
  | .for (some _), w => w.enough 5 = false
  | .goto label, w => w.canAlloc = false ∨ label ≠ []
  | .batch fullname _ _, w => w.canAlloc = false ∨ fullname = none
  | .call valid cmd, w => w.enough 2 = false ∨ valid = true ∧ Keeps cmd w.alloc.2.alloc.2

theorem docommand_fail (func : State → World → Option (State × World)) (s : State) {w : World}
    (h : w.canAlloc = false) : docommand func s w = some (s, w.alloc.2) := by
  have hw : w.alloc.1 = false := h
  change (if (!w.alloc.1) = true then some (s, w.alloc.2) else func s w.alloc.2) = _
  rw [hw]
  rfl

theorem docommand_ok (func : State → World → Option (State × World)) (s : State) {w : World}
    (h : w.canAlloc = true) : docommand func s w = func s w.alloc.2 := by
  have hw : w.alloc.1 = true := h
  change (if (!w.alloc.1) = true then some (s, w.alloc.2) else func s w.alloc.2) = _
  rw [hw]
  rfl

/-- What a command that leaves the chain as it is returns. -/
def Same (s : State) (r : Option (State × World)) : Prop :=
  ∃ s' w', r = some (s', w') ∧ Allocated s' ∧ s'.bc = s.bc

theorem Same.refl {s : State} (h : Allocated s) (w : World) : Same s (some (s, w)) :=
  ⟨s, w, rfl, h, rfl⟩

theorem Same.exit_pushed {s : State} (h : Allocated s) (w : World) :
    Same s ((exitBatch s.pushed).map (·, w)) := by
  obtain ⟨heq, halloc⟩ := h.pushed.exitBatch rfl
  exact ⟨_, w, by rw [heq]; rfl, halloc, rfl⟩

/-- FOR leaves the chain if memory runs out. -/
theorem doFor_fails {s : State} (h : Allocated s) (f : ForCommand) {w : World}
    (hw : w.enough 4 = false) : Same s (doFor f s w) := by
  rw [doFor]
  cases h0 : w.canAlloc with
  | false =>
    rw [newBatchContext_fail s h0]
    exact .refl h _
  | true =>
    rw [newBatchContext_ok s h0]
    dsimp only
    split
    · exact .exit_pushed h _
    · rename_i h1
      split
      · exact .exit_pushed h _
      · rename_i h2
        split
        · exact .exit_pushed h _
        · rename_i h3
          rw [Bool.not_eq_true, Bool.not_eq_false'] at h1 h2 h3
          have h0 : w.alloc.1 = true := h0
          simp [World.enough, World.canAlloc, h0, h1, h2, h3] at hw

/-- CALL takes its empty context off again. -/
theorem removeCall_empty {s : State} (h : Allocated s) {n : ℕ} {e : Context} {rest : List Block}
    (hbc : s.bc = ⟨n, e⟩ :: rest) (he : IsEmpty e) :
    ∃ s', removeCall n s = some s' ∧ Allocated s' ∧ s'.bc = rest := by
  refine ⟨{ s with bc := rest, freed := n :: s.freed }, ?_, h.pop hbc s.echo, rfl⟩
  have hlive : n ∉ s.freed := h.live ⟨n, e⟩ (hbc ▸ List.mem_cons_self)
  rw [removeCall, h.top hbc, Option.bind_some]
  simp only [he.bfile, he.bfnam, and_self, if_true, if_neg hlive]

theorem not_enough {w : World} {n : ℕ} (h : w.enough (n + 1) = false) (h0 : w.canAlloc = true) :
    w.alloc.2.enough n = false := by
  rwa [World.enough, h0, Bool.true_and] at h

/-- The empty context with block `n` is in front of `rest` in what a command returns. -/
def Front (n : ℕ) (rest : List Block) (r : Option (State × World)) : Prop :=
  ∃ s w, r = some (s, w) ∧ Allocated s ∧ ∃ e, s.bc = ⟨n, e⟩ :: rest ∧ IsEmpty e

theorem Same.front {s : State} {n : ℕ} {e : Context} {rest : List Block} {r : Option (State × World)}
    (h : Same s r) (hbc : s.bc = ⟨n, e⟩ :: rest) (he : IsEmpty e) : Front n rest r := by
  obtain ⟨s', w', hr, halloc, hbc'⟩ := h
  exact ⟨s', w', hr, halloc, e, hbc'.trans hbc, he⟩

theorem run_other_same {s : State} (h : Allocated s) (w : World) : Same s (run .other s w) := by
  rw [run, docommand]
  dsimp only
  split <;> exact .refl h _

theorem run_for_same {s : State} (h : Allocated s) {cmd : Option ForCommand} {w : World}
    (hk : Keeps (.for cmd) w) : Same s (run (.for cmd) s w) := by
  cases hw : w.canAlloc with
  | false => cases cmd <;> rw [run, docommand_fail _ _ hw] <;> exact .refl h _
  | true =>
    cases cmd with
    | none =>
      rw [run, docommand_ok _ _ hw]
      exact .refl h _
    | some f =>
      rw [run, docommand_ok _ _ hw]
      exact doFor_fails h f (not_enough hk hw)

/-- Without memory for its first word and its context, CALL does nothing. -/
theorem run_call_fail (valid : Bool) (cmd : Command) (s : State) {w : World}
    (hw : w.enough 2 = false) : ∃ w', run (.call valid cmd) s w = some (s, w') := by
  cases h0 : w.canAlloc with
  | false => exact ⟨_, by rw [run, docommand_fail _ _ h0]⟩
  | true =>
    have h1 := not_enough hw h0
    rw [World.enough, World.enough, Bool.and_true] at h1
    exact ⟨_, by rw [run, docommand_ok _ _ h0, cmdCall, newBatchContext_fail s h1]⟩

/-- CALL runs the rest of its line with an empty context in front. -/
theorem run_call_ok (cmd : Command) (s : State) {w : World} (hw : w.enough 2 = true) :
    run (.call true cmd) s w = (run cmd s.pushed w.alloc.2.alloc.2).bind fun r =>
      (removeCall s.next r.1).map (·, r.2) := by
  rw [World.enough, World.enough, World.enough, Bool.and_true, Bool.and_eq_true] at hw
  rw [run, docommand_ok _ _ hw.1, cmdCall, newBatchContext_ok s hw.2]
  rfl

/-- CALL of what keeps an empty context. -/
theorem run_call_same {cmd : Command}
    (hcmd : ∀ (s : State) (n : ℕ) (e : Context) (rest : List Block) (w : World), Allocated s →
      s.bc = ⟨n, e⟩ :: rest → IsEmpty e → Keeps cmd w → Front n rest (run cmd s w))
    {s : State} (h : Allocated s) {valid : Bool} {w : World} (hk : Keeps (.call valid cmd) w) :
    Same s (run (.call valid cmd) s w) := by
  cases hw : w.enough 2 with
  | false =>
    obtain ⟨w', hrun⟩ := run_call_fail valid cmd s hw
    exact hrun ▸ .refl h w'
  | true =>
    obtain ⟨rfl, hkeeps⟩ := hk.resolve_left (by rw [hw]; decide)
    obtain ⟨s₁, w₁, hrun, halloc₁, e₁, hbc₁, he₁⟩ :=
      hcmd _ _ _ _ _ h.pushed rfl ⟨rfl, rfl, rfl⟩ hkeeps
    obtain ⟨s₂, hremove, halloc₂, hbc₂⟩ := removeCall_empty halloc₁ hbc₁ he₁
    refine ⟨s₂, w₁, ?_, halloc₂, hbc₂⟩
    rw [run_call_ok cmd s hw, hrun, Option.bind_some, hremove]
    rfl

/-- A context that is not of FOR stays in front of the chain. -/
theorem exitFors_stays {s : State} (h : Allocated s) {b : Block} {rest : List Block}
    (hbc : s.bc = b :: rest) (hfor : b.ctx.forvar = none) : exitFors s.bc s = some s := by
  rw [hbc, exitFors, if_neg (h.live b (hbc ▸ List.mem_cons_self)), if_pos hfor]

/-- **What keeps an empty context** leaves it in front of the chain. -/
theorem run_keeps (c : Command) {s : State} (h : Allocated s) {n : ℕ} {e : Context}
    {rest : List Block} (hbc : s.bc = ⟨n, e⟩ :: rest) (he : IsEmpty e) {w : World} (hk : Keeps c w) :
    Front n rest (run c s w) := by
  induction c generalizing s n e rest w with
  | other => exact (run_other_same h w).front hbc he
  | «for» cmd => exact (run_for_same h hk).front hbc he
  | call valid cmd ih =>
    have hcall := run_call_same (fun _ _ _ _ _ halloc hbc he hk => ih halloc hbc he hk) h hk
    exact hcall.front hbc he
  | goto label =>
    cases hw : w.canAlloc with
    | false =>
      rw [run, docommand_fail _ _ hw]
      exact ⟨s, _, rfl, h, e, hbc, he⟩
    | true =>
      have hlabel : label ≠ [] := hk.resolve_left (by rw [hw]; decide)
      rw [run, docommand_ok _ _ hw, cmdGoto, exitFors_stays h hbc he.forvar]
      dsimp only
      rw [if_neg (by rw [hbc]; exact List.cons_ne_nil _ _), if_neg hlabel]
      split
      · exact ⟨s, _, rfl, h, e, hbc, he⟩
      · obtain ⟨heq, halloc⟩ := h.modify hbc fun c => { c with brewind := true, blabel := some label }
        rw [heq]
        exact ⟨_, _, rfl, halloc, _, rfl, he.forvar, he.bfile, he.bfnam⟩
  | batch fullname firstword params =>
    cases hw : w.canAlloc with
    | false =>
      rw [run, docommand_fail _ _ hw]
      exact ⟨s, _, rfl, h, e, hbc, he⟩
    | true =>
      rw [run, docommand_ok _ _ hw, hk.resolve_left (by rw [hw]; decide), batch]
      exact ⟨s, _, rfl, h, e, hbc, he⟩

/-! ### What CALL may call -/

/-- The command is to start a batch file. -/
def Command.startsBatch : Command → Bool
  | .batch _ _ _ => true
  | .call _ cmd => cmd.startsBatch
  | _ => false

/-- The context in front is not of FOR. -/
def NoFor (s : State) : Prop := ∃ b rest, s.bc = b :: rest ∧ b.ctx.forvar = none

/-- What CALL can call and leave a chain that is well formed: a command that keeps its context, or
a batch file, if there is memory for it or the caller is a batch file. -/
def Returns (s : State) (w : World) : Command → Prop
  | .batch fullname firstword params =>
    Keeps (.batch fullname firstword params) w ∨ w.enough 3 = true ∨ NoFor s
  | c => Keeps c w

/-- What CALL may call: what it can, but GOTO only if that has nothing to do. -/
def Callable (s : State) (w : World) : Command → Prop
  | .goto label =>
    w.canAlloc = false ∨ label ≠ [] ∧ (s.bc = [] ∨ NoFor s ∧ w.enough 2 = false)
  | c => Returns s w c

/-- **The commands that leave the chain well formed.** -/
def Safe (s : State) (w : World) : Command → Prop
  | .call valid cmd => w.enough 2 = false ∨ valid = true ∧ Returns s w.alloc.2.alloc.2 cmd
  | _ => True

/-- **The commands that leave the chain well formed**, and the contexts that they should. -/
def Allowed (s : State) (w : World) : Command → Prop
  | .call valid cmd => w.enough 2 = false ∨ valid = true ∧ Callable s w.alloc.2.alloc.2 cmd
  | _ => True

theorem Callable.returns {s : State} {w : World} {c : Command} (hc : Callable s w c) :
    Returns s w c := by
  cases c with
  | goto label => exact hc.imp_right And.left
  | other | «for» | call | batch => exact hc

theorem Returns.keeps {s : State} {w : World} {c : Command} (hc : Returns s w c)
    (hbatch : c.startsBatch = false) : Keeps c w := by
  cases c with
  | batch fullname firstword params => cases hbatch
  | other | «for» | call | goto => exact hc

theorem Allowed.safe {s : State} {w : World} {c : Command} (ha : Allowed s w c) : Safe s w c := by
  cases c with
  | call valid cmd => exact ha.imp_right (And.imp_right Callable.returns)
  | other | «for» | goto | batch => trivial

/-- A command that CALL may call, and that starts no batch file, leaves the chain when it is called
without CALL. -/
theorem run_same {s : State} (h : Allocated s) {w : World} {c : Command} (hc : Callable s w c)
    (hbatch : c.startsBatch = false) : Same s (run c s w) := by
  cases c with
  | other => exact run_other_same h w
  | «for» cmd => exact run_for_same h hc
  | call valid cmd =>
    exact run_call_same (fun _ _ _ _ _ halloc hbc he hk => run_keeps cmd halloc hbc he hk) h hc
  | batch fullname firstword params => cases hbatch
  | goto label =>
    cases hw : w.canAlloc with
    | false =>
      rw [run, docommand_fail _ _ hw]
      exact .refl h _
    | true =>
      obtain ⟨hlabel, hc⟩ := hc.resolve_left (by rw [hw]; decide)
      rw [run, docommand_ok _ _ hw, cmdGoto]
      rcases hc with hbc | ⟨⟨b, rest, hbc, hfor⟩, hmem⟩
      · rw [hbc, exitFors]
        dsimp only
        rw [if_pos hbc]
        exact .refl h _
      · rw [exitFors_stays h hbc hfor]
        dsimp only
        rw [if_neg (by rw [hbc]; exact List.cons_ne_nil _ _), if_neg hlabel]
        have hdup := not_enough hmem hw
        rw [World.enough, World.enough, Bool.and_true] at hdup
        rw [if_pos (by rw [show w.alloc.2.alloc.1 = false from hdup]; rfl)]
        exact .refl h _

/-- CALL leaves the contexts of a batch file. -/
theorem removeCall_batch {s : State} (h : Allocated s) (n : ℕ) {b : Block} {rest : List Block}
    (hbc : s.bc = b :: rest) (hb : IsBatch b.ctx) : removeCall n s = some s := by
  rw [removeCall, h.top hbc, Option.bind_some]
  exact if_neg fun hempty => hb.bfnam hempty.2

/-- A batch file that is called. -/
theorem run_call_batch {s : State} (h : Sound s) {fullname : Option Str} {firstword : Str}
    {params : List Str} {w : World} (hw : w.enough 2 = true)
    (hc : w.alloc.2.alloc.2.enough 3 = true ∨ NoFor s) (hcan : w.alloc.2.alloc.2.canAlloc = true)
    (hname : fullname ≠ none) : Leaves (run (.call true (.batch fullname firstword params)) s w) := by
  obtain ⟨name, rfl⟩ := Option.ne_none_iff_exists'.mp hname
  have hpush := h.allocated.pushed
  obtain ⟨s₁, w₁, hrun, halloc, hspec⟩ := startBatch_spec hpush rfl rfl name firstword params
    w.alloc.2.alloc.2.alloc.2
  have hbatch : run (.batch (some name) firstword params) s.pushed w.alloc.2.alloc.2 =
      some (s₁, w₁) := by
    rw [run, docommand_ok _ _ hcan, batch, exitFors_stays hpush rfl rfl, ← hrun]
    dsimp only
    rw [if_neg (show s.pushed.bc ≠ [] from List.cons_ne_nil _ _), (hpush.modify rfl _).1]
    rfl
  rw [run_call_ok _ s hw, hbatch, Option.bind_some]
  split at hspec
  · obtain ⟨c, hbc, hkind⟩ := hspec
    rw [removeCall_batch halloc s.next hbc hkind]
    refine ⟨s₁, w₁, rfl, halloc, fun b hb => ?_⟩
    rw [hbc] at hb
    rcases List.mem_cons.mp hb with rfl | hb
    · exact Or.inr hkind
    · exact h.kinds b hb
  · -- The context is gone: that of the caller is looked at.
    rename_i hmem
    rw [World.enough, hcan, Bool.true_and] at hc
    obtain ⟨b, rest, hbc, hfor⟩ := hc.resolve_left hmem
    have hkind := IsBatch.of_kind (h.kinds b (hbc ▸ List.mem_cons_self)) hfor
    rw [removeCall_batch halloc s.next (hspec.trans hbc) hkind]
    refine ⟨s₁, w₁, rfl, halloc, fun b hb => h.kinds b ?_⟩
    rw [hspec] at hb
    exact hb

/-- **A CALL that is safe** leaves a sound shell. -/
theorem run_call_leaves {s : State} (h : Sound s) {valid : Bool} {cmd : Command} {w : World}
    (ha : Safe s w (.call valid cmd)) : Leaves (run (.call valid cmd) s w) := by
  have hsame : Keeps (.call valid cmd) w → Leaves (run (.call valid cmd) s w) := fun hk => by
    obtain ⟨s', w', hrun, halloc, hbc⟩ := run_call_same
      (fun _ _ _ _ _ halloc hbc he hk => run_keeps cmd halloc hbc he hk) h.allocated hk
    exact ⟨s', w', hrun, halloc, hbc ▸ h.kinds⟩
  cases hw : w.enough 2 with
  | false => exact hsame (Or.inl hw)
  | true =>
    obtain ⟨rfl, hc⟩ := ha.resolve_left (by rw [hw]; decide)
    cases hbatch : cmd.startsBatch with
    | false => exact hsame (Or.inr ⟨rfl, hc.keeps hbatch⟩)
    | true =>
      cases cmd with
      | other => cases hbatch
      | «for» cmd => cases hbatch
      | goto label => cases hbatch
      | call valid cmd => exact hsame (Or.inr ⟨rfl, hc⟩)
      | batch fullname firstword params =>
        by_cases hk : Keeps (.batch fullname firstword params) w.alloc.2.alloc.2
        · exact hsame (Or.inr ⟨rfl, hk⟩)
        · have hk' := hk
          rw [Keeps, not_or, Bool.not_eq_false] at hk'
          exact run_call_batch h hw (hc.resolve_left hk) hk'.1 hk'.2

/-- What CALL should leave: just the contexts that the called command itself leaves. -/
def CallExact (s : State) (w : World) : Command → Prop
  | .call valid cmd => cmd.startsBatch = false →
    (run (.call valid cmd) s w).map (·.1.bc) =
      if w.enough 2 then (run cmd s w.alloc.2.alloc.2).map (·.1.bc) else some s.bc
  | _ => True

theorem Same.map_bc {s : State} {r : Option (State × World)} (h : Same s r) :
    r.map (·.1.bc) = some s.bc := by
  obtain ⟨s', w', rfl, -, hbc⟩ := h
  exact congrArg some hbc

/-- **CALL is exact** if it is allowed. -/
theorem run_callExact {s : State} (h : Sound s) {c : Command} {w : World} (ha : Allowed s w c) :
    CallExact s w c := by
  cases c with
  | call valid cmd =>
    intro hbatch
    cases hw : w.enough 2 with
    | false =>
      obtain ⟨w', hrun⟩ := run_call_fail valid cmd s hw
      rw [hrun]
      rfl
    | true =>
      obtain ⟨rfl, hc⟩ := ha.resolve_left (by rw [hw]; decide)
      have hcall := run_call_same (fun _ _ _ _ _ halloc hbc he hk => run_keeps cmd halloc hbc he hk)
        h.allocated (Or.inr ⟨rfl, hc.returns.keeps hbatch⟩)
      rw [hcall.map_bc, if_pos rfl, (run_same h.allocated hc hbatch).map_bc]
  | other | «for» | goto | batch => trivial

/-- Any command that is safe leaves a sound shell. -/
theorem run_leaves {s : State} (h : Sound s) {c : Command} {w : World} (ha : Safe s w c) :
    Leaves (run c s w) := by
  cases c with
  | other => rw [run]; exact docommand_leaves h (fun w => ⟨s, w, rfl, h⟩) w
  | «for» cmd =>
    cases cmd with
    | none => rw [run]; exact docommand_leaves h (fun w => ⟨s, w, rfl, h⟩) w
    | some f => rw [run]; exact docommand_leaves h (doFor_leaves h f) w
  | goto label => rw [run]; exact docommand_leaves h (cmdGoto_leaves h label) w
  | batch fullname firstword params =>
    rw [run]
    exact docommand_leaves h (batch_leaves h fullname firstword params) w
  | call valid cmd => exact run_call_leaves h ha

end Shell
end BurdahDos
