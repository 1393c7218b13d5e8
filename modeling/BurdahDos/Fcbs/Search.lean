import BurdahDos.Fcbs.Defs
import BurdahDos.Dir.Fnode
import Mathlib

/-!
# Searching with FCBs

`FcbFindFirstNext`, the functions 11h and 12h.  A search goes on from where it is by a `dmatch`, but
an FCB has no room for one.  The function keeps it in a static variable, `Dmatch`, and notes in the
FCB only where the search is.  From these notes it makes up the `dmatch` again, but only for a
find-first, which does not use it.  A find-next takes what the call before has left in `Dmatch`, on
whatever FCB that was.

So searches on several FCBs disturb each other, unless every find-next follows on the calls of its
own FCB: `searches_independent`.
-/

set_option autoImplicit false

namespace BurdahDos
namespace Fcbs

open File (Name Dirent FNode)
open Dir (Path Dmatch Dta World)

/-! ## The code -/

/-- What an extended FCB has in front of the FCB, behind the flag. -/
structure Header where
  resvrd : Vector UInt8 5
  attrib : UInt8
  deriving DecidableEq

/-- `xfcb`: an FCB, extended or not. -/
structure Xfcb where
  header : Option Header
  fcb : Fcb

/-- What the function leaves for its next call, on any FCB: `Dmatch`, `wAttr` and `fnode[0]`. -/
structure Statics where
  dmatch : Dta
  wAttr : UInt16
  fnode : FNode

/-- The rest of the system, as a call finds it. -/
structure Env where
  world : World
  defaultDrive : ℕ
  /-- `DosUpFMem`, on one character. -/
  upFChar : UInt8 → UInt8

/-- What a call returns in `AL` and puts into the DTA: the header of an extended FCB, the drive and
the entry found. -/
structure Answer where
  al : UInt8
  header : Option Header
  entry : Option (ℕ × Dirent)

/-- `FcbNameInit`: the name as text, and the drive. -/
def fcbNameInit (defaultDrive : ℕ) (f : Fcb) : Path × ℕ :=
  if f.drive ≠ 0 then
    ([UInt8.ofNat (0x41 + f.drive - 1), 0x3a] ++ Dir.convertName83ToNameSZ f.name, f.drive)
  else (Dir.convertName83ToNameSZ f.name, defaultDrive + 1)

/-- "Reconstruct the dirmatch structure from the fcb". -/
def reconstruct (e : Env) (wAttr : UInt16) (f : Fcb) : Dmatch where
  drive := f.sftno
  namePat := f.name.map e.upFChar
  attrSrch := wAttr.toUInt8
  entry := f.strtclst
  dircluster := f.dirclst

/-- `wAttr`, which an extended FCB sets. -/
def Xfcb.setAttr (lpXfcb : Xfcb) (wAttr : UInt16) : UInt16 :=
  match lpXfcb.header with
  | none => wAttr
  | some h => h.attrib.toUInt16

/-- `FcbFindFirstNext`, what it makes of the answer to the search. -/
def findAnswer (lpXfcb : Xfcb) (fcbDrive : ℕ) (wAttr : UInt16)
    (r : Except ℤ Dirent × Dta × World) : Answer × Statics × Xfcb :=
  let s := ⟨r.2.1, wAttr, r.2.2.fnode⟩
  match r.1 with
  | .error _ => (⟨fcbError, lpXfcb.header, none⟩, s, lpXfcb)
  | .ok searchDir =>
    let dm := r.2.1.dm
    (⟨fcbSuccess, lpXfcb.header, some (fcbDrive, searchDir)⟩, s,
      { lpXfcb with fcb := { lpXfcb.fcb with
        dirclst := dm.dircluster % 2 ^ 16, strtclst := dm.entry, sftno := dm.drive } })

/-- `FcbFindFirstNext` -/
def fcbFindFirstNext (e : Env) (s : Statics) (lpXfcb : Xfcb) (first : Bool) :
    Answer × Statics × Xfcb :=
  let lpFcb := lpXfcb.fcb
  let name := fcbNameInit e.defaultDrive lpFcb
  let dmatch := if first then { s.dmatch with dm := reconstruct e s.wAttr lpFcb } else s.dmatch
  let wAttr := lpXfcb.setAttr (if first then Dir.dAll.toUInt16 else s.wAttr)
  let w := e.world.leave s.fnode
  findAnswer lpXfcb name.2 wAttr
    (if first then Dir.dosFindFirst w wAttr name.1 dmatch else Dir.dosFindNext w dmatch)

/-! ## Many searches -/

variable {ι : Type} [DecidableEq ι]

/-- What the calls work on: the static variables, and the FCBs. -/
structure Machine (ι : Type) where
  statics : Statics
  xfcb : ι → Xfcb

/-- A call: on which FCB, whether it is a find-first, and how it finds the rest of the system. -/
structure Call (ι : Type) where
  who : ι
  first : Bool
  env : Env

/-- A call of a program. -/
def step (m : Machine ι) (c : Call ι) : Answer × Machine ι :=
  let r := fcbFindFirstNext c.env m.statics (m.xfcb c.who) c.first
  (r.1, ⟨r.2.1, Function.update m.xfcb c.who r.2.2⟩)

/-- What the calls of a program return, and on which FCB. -/
def answers : Machine ι → List (Call ι) → List (ι × Answer)
  | _, [] => []
  | m, c :: cs => (c.who, (step m c).1) :: answers (step m c).2 cs

/-- What the calls on one of the FCBs return. -/
def answersOf (who : ι) (m : Machine ι) (calls : List (Call ι)) : List Answer :=
  ((answers m calls).filter fun a => a.1 = who).map Prod.snd

/-- The calls on one of the FCBs. -/
def callsOf (who : ι) (calls : List (Call ι)) : List (Call ι) := calls.filter fun c => c.who = who

/-- The calls on each FCB return what they would without those on the others. -/
def Independent (m : Machine ι) (calls : List (Call ι)) : Prop :=
  ∀ who, answersOf who m calls = answersOf who m (callsOf who calls)

/-- Of which FCB `Dmatch` is after a call: of one on which a find-first has succeeded, as long as no
call on another one is made. -/
def owned (own : ι → Bool) (c : Call ι) (a : Answer) : ι → Bool := fun i =>
  decide (i = c.who) && (own i || c.first && a.al == fcbSuccess)

/-- At every find-next, no call on another FCB was made since the last find-first on the same one
that succeeded, or at all if there was none.  `own` says of which FCBs this is so at first. -/
def Undisturbed : Machine ι → (ι → Bool) → List (Call ι) → Prop
  | _, _, [] => True
  | m, own, c :: cs =>
    (c.first = true ∨ own c.who = true) ∧
      Undisturbed (step m c).2 (owned own c (step m c).1) cs

/-! ## One call -/

/-- The static variables differ at most in the fnode. -/
structure Agree (s s' : Statics) : Prop where
  dmatch : s'.dmatch = s.dmatch
  wAttr : s'.wAttr = s.wAttr

theorem popDmp_any (r : Dir.Hit) (dmp dmp' : Dta) :
    (Dir.popDmp r dmp').1 = (Dir.popDmp r dmp).1 ∧
      ∀ e, (Dir.popDmp r dmp).1 = .ok e → (Dir.popDmp r dmp').2 = (Dir.popDmp r dmp).2 := by
  cases r with
  | error rc => exact ⟨rfl, fun _ h => (nomatch h)⟩
  | ok hit => exact ⟨rfl, fun _ _ => rfl⟩

/-- What a `DosFindFirst` that succeeds puts into the DTA does not depend on what was there. -/
theorem dosFindFirst_any (w : World) (attr : UInt16) (name : Path) (dmp dmp' : Dta) :
    (Dir.dosFindFirst w attr name dmp').1 = (Dir.dosFindFirst w attr name dmp).1 ∧
      ∀ e, (Dir.dosFindFirst w attr name dmp).1 = .ok e →
        (Dir.dosFindFirst w attr name dmp').2.1 = (Dir.dosFindFirst w attr name dmp).2.1 := by
  rw [Dir.dosFindFirst, Dir.dosFindFirst]
  dsimp only
  split
  · exact ⟨rfl, fun e h => (by cases h)⟩
  · exact popDmp_any _ dmp dmp'

/-- The answer is the same for the same answer to the search. -/
theorem findAnswer_agree (x : Xfcb) (fcbDrive : ℕ) (wAttr : UInt16)
    {r r' : Except ℤ Dirent × Dta × World} (hrc : r'.1 = r.1)
    (hdmp : ∀ e, r.1 = .ok e → r'.2.1 = r.2.1) :
    (findAnswer x fcbDrive wAttr r').1 = (findAnswer x fcbDrive wAttr r).1 ∧
      (findAnswer x fcbDrive wAttr r').2.2 = (findAnswer x fcbDrive wAttr r).2.2 ∧
      ((findAnswer x fcbDrive wAttr r).1.al = fcbSuccess ∨ r'.2.1 = r.2.1 →
        Agree (findAnswer x fcbDrive wAttr r).2.1 (findAnswer x fcbDrive wAttr r').2.1) := by
  obtain ⟨rc, dmp, w⟩ := r
  obtain ⟨rc', dmp', w'⟩ := r'
  dsimp only at hrc hdmp ⊢
  subst hrc
  cases rc' with
  | error rc =>
    exact ⟨rfl, rfl, fun h => ⟨h.resolve_left (show fcbError ≠ fcbSuccess by decide), rfl⟩⟩
  | ok e =>
    obtain rfl := hdmp e rfl
    exact ⟨rfl, rfl, fun _ => ⟨rfl, rfl⟩⟩

/-- What the calls on an FCB do depends on no static variable but `Dmatch` and `wAttr`. -/
theorem fcbFindFirstNext_agree {s s' : Statics} (h : Agree s s') (e : Env) (x : Xfcb)
    (first : Bool) :
    (fcbFindFirstNext e s' x first).1 = (fcbFindFirstNext e s x first).1 ∧
      (fcbFindFirstNext e s' x first).2.2 = (fcbFindFirstNext e s x first).2.2 ∧
      Agree (fcbFindFirstNext e s x first).2.1 (fcbFindFirstNext e s' x first).2.1 := by
  obtain ⟨dmatch, wAttr, fnode⟩ := s
  obtain ⟨dmatch', wAttr', fnode'⟩ := s'
  obtain ⟨rfl, rfl⟩ := h
  cases first with
  | true =>
    obtain ⟨hrc, hdmp⟩ := Dir.dosFindFirst_leave (e.world.leave fnode) fnode'
      (x.setAttr Dir.dAll.toUInt16) (fcbNameInit e.defaultDrive x.fcb).1
      { dmatch' with dm := reconstruct e wAttr' x.fcb }
    obtain ⟨h1, h2, h3⟩ := findAnswer_agree x (fcbNameInit e.defaultDrive x.fcb).2
      (x.setAttr Dir.dAll.toUInt16) hrc fun _ _ => hdmp
    exact ⟨h1, h2, h3 (Or.inr hdmp)⟩
  | false =>
    obtain ⟨hrc, hdmp⟩ := Dir.dosFindNext_leave (e.world.leave fnode) fnode' dmatch'
    obtain ⟨h1, h2, h3⟩ := findAnswer_agree x (fcbNameInit e.defaultDrive x.fcb).2
      (x.setAttr wAttr') hrc fun _ _ => hdmp
    exact ⟨h1, h2, h3 (Or.inr hdmp)⟩

/-- A find-first returns the same whatever the static variables are, and leaves the same if it
succeeds. -/
theorem fcbFindFirst_any (s s' : Statics) (e : Env) (x : Xfcb) :
    (fcbFindFirstNext e s' x true).1 = (fcbFindFirstNext e s x true).1 ∧
      (fcbFindFirstNext e s' x true).2.2 = (fcbFindFirstNext e s x true).2.2 ∧
      ((fcbFindFirstNext e s x true).1.al = fcbSuccess →
        Agree (fcbFindFirstNext e s x true).2.1 (fcbFindFirstNext e s' x true).2.1) := by
  obtain ⟨hrc, hdmp⟩ := Dir.dosFindFirst_leave (e.world.leave s.fnode) s'.fnode
    (x.setAttr Dir.dAll.toUInt16) (fcbNameInit e.defaultDrive x.fcb).1
    { s'.dmatch with dm := reconstruct e s'.wAttr x.fcb }
  obtain ⟨hrc', hdmp'⟩ := dosFindFirst_any (e.world.leave s.fnode) (x.setAttr Dir.dAll.toUInt16)
    (fcbNameInit e.defaultDrive x.fcb).1 { s.dmatch with dm := reconstruct e s.wAttr x.fcb }
    { s'.dmatch with dm := reconstruct e s'.wAttr x.fcb }
  obtain ⟨h1, h2, h3⟩ := findAnswer_agree x (fcbNameInit e.defaultDrive x.fcb).2
    (x.setAttr Dir.dAll.toUInt16) (hrc.trans hrc') fun e h => hdmp.trans (hdmp' e h)
  exact ⟨h1, h2, fun h => h3 (Or.inl h)⟩

/-! ## A whole run -/

/-- A call on an FCB returns the same, and what it leaves agrees if it has become the FCB's own. -/
theorem step_own {m m' : Machine ι} {own : ι → Bool} {c : Call ι}
    (hx : m'.xfcb c.who = m.xfcb c.who) (hown : own c.who = true → Agree m.statics m'.statics)
    (hc : c.first = true ∨ own c.who = true) :
    (step m' c).1 = (step m c).1 ∧
      (step m' c).2.xfcb c.who = (step m c).2.xfcb c.who ∧
      (owned own c (step m c).1 c.who = true →
        Agree (step m c).2.statics (step m' c).2.statics) := by
  rw [step, step, hx]
  dsimp only
  rw [Function.update_self, Function.update_self]
  cases ho : own c.who with
  | true =>
    obtain ⟨h1, h2, h3⟩ := fcbFindFirstNext_agree (hown ho) c.env (m.xfcb c.who) c.first
    exact ⟨h1, h2, fun _ => h3⟩
  | false =>
    have hfirst : c.first = true := hc.resolve_right (by rw [ho]; decide)
    rw [hfirst]
    obtain ⟨h1, h2, h3⟩ := fcbFindFirst_any m.statics m'.statics c.env (m.xfcb c.who)
    refine ⟨h1, h2, fun h => h3 ?_⟩
    simpa [owned, ho, hfirst] using h

theorem answersOf_cons (who : ι) (m : Machine ι) (c : Call ι) (cs : List (Call ι)) :
    answersOf who m (c :: cs) =
      if c.who = who then (step m c).1 :: answersOf who (step m c).2 cs
      else answersOf who (step m c).2 cs := by
  rw [answersOf, answers, List.filter_cons]
  by_cases h : c.who = who
  · rw [if_pos (by simpa using h), if_pos h]
    rfl
  · rw [if_neg (by simpa using h), if_neg h]
    rfl

/-- The calls on an FCB return the same without those on the others, and where the static variables
are others as long as they are not its own. -/
theorem answersOf_callsOf (who : ι) {calls : List (Call ι)} {m m' : Machine ι} {own : ι → Bool}
    (hx : m'.xfcb who = m.xfcb who) (hown : own who = true → Agree m.statics m'.statics)
    (h : Undisturbed m own calls) :
    answersOf who m calls = answersOf who m' (callsOf who calls) := by
  induction calls generalizing m m' own with
  | nil => rfl
  | cons c cs ih =>
    obtain ⟨hc, hcs⟩ := h
    rw [answersOf_cons]
    by_cases hwho : c.who = who
    · subst hwho
      have hcalls : callsOf c.who (c :: cs) = c :: callsOf c.who cs :=
        List.filter_cons_of_pos (by simp)
      rw [if_pos rfl, hcalls, answersOf_cons, if_pos rfl]
      obtain ⟨hanswer, hx', hown'⟩ := step_own hx hown hc
      rw [hanswer, ih hx' hown' hcs]
    · have hcalls : callsOf who (c :: cs) = callsOf who cs :=
        List.filter_cons_of_neg (by simpa using hwho)
      rw [if_neg hwho, hcalls]
      refine ih ?_ ?_ hcs
      · rw [hx]
        exact (Function.update_of_ne (Ne.symm hwho) _ _).symm
      · intro ho
        rw [owned, decide_eq_false (Ne.symm hwho)] at ho
        exact (nomatch ho)

/-- **Searches with FCBs** are independent as long as every find-next follows on the calls of its
own FCB. -/
theorem searches_independent (m : Machine ι) {calls : List (Call ι)}
    (h : Undisturbed m (fun _ => true) calls) : Independent m calls :=
  fun who => answersOf_callsOf who rfl (fun _ => ⟨rfl, rfl⟩) h

/-! ## Two searches in a small directory -/

/-- The small tree, with `A` as the current directory of every drive. -/
def searchEnv : Env where
  world := { Dir.smallWorld 0 [] with
    truename := fun name => (0, [0x43, 0x3a, 0x5c, 0x41, 0x5c] ++ name.drop 2) }
  defaultDrive := 2
  upFChar := id

/-- An FCB for a name on drive C. -/
def searchFcb (name : Name) : Xfcb where
  header := none
  fcb :=
    { drive := 3, name := name, cublock := 0, recsiz := 0, fsize := 0, date := 0, time := 0
      sftno := 0, strtclst := 0, dirclst := 0, curec := 0, rndm := 0 }

/-- Two FCBs, one for all names and one for `F`. -/
def twoFcbs : Machine Bool where
  statics := ⟨Dir.smallDta, 0, Dir.smallFNode⟩
  xfcb := fun i =>
    if i then searchFcb Dir.nameF else searchFcb (Vector.replicate 11 Path.quest)

theorem searches_independent_twoFcbs : Independent twoFcbs
    [⟨false, true, searchEnv⟩, ⟨false, false, searchEnv⟩, ⟨true, true, searchEnv⟩] :=
  searches_independent twoFcbs ⟨Or.inl rfl, Or.inr (by decide +kernel), Or.inl rfl, trivial⟩

/-- The search for all names ends when one for `F` comes in between. -/
theorem nested_search_ends : ¬ Independent twoFcbs
    [⟨false, true, searchEnv⟩, ⟨true, true, searchEnv⟩, ⟨false, false, searchEnv⟩] := by
  intro h
  have hal := congrArg (List.map Answer.al) (h false)
  revert hal
  decide +kernel

end Fcbs
end BurdahDos
