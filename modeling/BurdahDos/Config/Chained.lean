import BurdahDos.Config.Read
import Mathlib

/-!
# Chained files

What the second pass of `DoConfig` executes.  A chained file is read up to its last line that is
ended, and then the file that chained it behind the `CHAIN` line (`resumes`).  A last line that is
not ended is dropped with the file, but executed in the main file; if it chains a file there,
nothing is read of that file, and the main file is not closed.  `doConfig_iff` says exactly when
all files are read in place.
-/

set_option autoImplicit false

namespace BurdahDos
namespace Config
namespace Chain

open CString
open Strings (bytes)

/-! ## States -/

/-- A file is read by a descriptor, in front of other open files, and this is all the state says. -/
structure State.Reads (s : State) (fd : ℕ) (f : Bytes) (fds : List (ℕ × Bytes))
    (cfgFile : List CfgFile) (n : ℕ) : Prop where
  desc : s.nFileDesc = fd
  files : s.fds = (fd, f) :: fds
  chain : s.cfgFile = cfgFile
  line : s.nCfgLine = n
  eof : s.bEof = false
  size : s.szLine.length = lineSize

/-- The calls are written down between two states, unless the user has a line skipped. -/
def Logged (s s' : State) (cs : List Call) : Prop :=
  ∃ j, s'.journal = s.journal ++ j ∧ (Event.skip ∈ j ∨ calls j = cs)

variable {files : Str → Option Bytes} {u : User} {s s' s'' : State} {fd n d : ℕ} {l f g : Bytes}
  {fds : List (ℕ × Bytes)} {cfg : CfgFile} {cfgs : List CfgFile} {cs cs' : List Call}

theorem Logged.trans (h : Logged s s' cs) (h' : Logged s' s'' cs') :
    Logged s s'' (cs ++ cs') := by
  obtain ⟨j, hj, hcs⟩ := h
  obtain ⟨j', hj', hcs'⟩ := h'
  refine ⟨j ++ j', by rw [hj', hj, List.append_assoc], ?_⟩
  rcases hcs with hskip | hcs
  · exact Or.inl (List.mem_append_left j' hskip)
  rcases hcs' with hskip | hcs'
  · exact Or.inl (List.mem_append_right j hskip)
  exact Or.inr (by rw [calls, List.filterMap_append, ← calls, ← calls, hcs, hcs'])

theorem chained_fits (hopen : ∀ name f, files name = some f → Fits 0 f)
    (h : chained files l = some g) : Fits 0 g := by
  rw [chained, Option.bind_eq_some_iff] at h
  obtain ⟨⟨func, arg⟩, -, h⟩ := h
  split at h
  · exact hopen _ g h
  · cases h

/-! ## Turns -/

/-- A line that is ended. -/
theorem turn_line (files : Str → Option Bytes) (u : User)
    (hs : s.Reads fd (l ++ 10 :: f) fds cfgs n) (hl : 10 ∉ l)
    (hfits : Fits 0 (l ++ 10 :: f)) :
    ∃ t, t.Reads fd f fds cfgs n ∧ t.journal = s.journal ∧ Shows t.szLine l ∧
      turn files u 2 s = some { command files u 2 t with
        nCfgLine := (command files u 2 t).nCfgLine + 1 } := by
  obtain ⟨hfits', szLine, pLine, hread, hshows⟩ := readLine_line hl hfits hs.size
  refine ⟨{ s with szLine := szLine.set pLine 0, fds := (fd, f) :: fds, bEof := false },
    ⟨hs.desc, rfl, hs.chain, hs.line, rfl, hshows.1⟩, rfl, hshows, ?_⟩
  rw [turn, hs.files, hs.desc, List.lookup_cons_self, Option.map_some, hread]
  simp [setFd]

/-- A chained file ends. -/
theorem turn_resume (files : Str → Option Bytes) (u : User)
    (hs : s.Reads fd l ((cfg.nFileDesc, g) :: fds) (cfg :: cfgs) n) (hl : 10 ∉ l)
    (hfits : Fits 0 l) :
    ∃ t, t.Reads cfg.nFileDesc g fds cfgs (cfg.nCfgLine + 1) ∧ t.journal = s.journal ∧
      turn files u 2 s = some t := by
  obtain ⟨szLine, pLine, hread, hshows⟩ := readLine_eof hl hfits hs.size
  refine ⟨{ s with
      szLine := szLine.set pLine 0, fds := (cfg.nFileDesc, g) :: fds, nFileDesc := cfg.nFileDesc,
      cfgFile := cfgs, nCfgLine := cfg.nCfgLine + 1, bEof := false },
    ⟨rfl, rfl, rfl, rfl, rfl, hshows.1⟩, rfl, ?_⟩
  rw [turn, hs.files, hs.desc, List.lookup_cons_self, Option.map_some, hread]
  simp [setFd, hs.chain, resume, closeFd]

/-- The last line of the main file. -/
theorem turn_last (files : Str → Option Bytes) (u : User) (hs : s.Reads fd l fds [] n)
    (hl : 10 ∉ l) (hfits : Fits 0 l) :
    ∃ t, t.nFileDesc = fd ∧ t.fds = (fd, []) :: fds ∧ t.cfgFile = [] ∧ t.bEof = true ∧
      t.journal = s.journal ∧ Shows t.szLine l ∧
      turn files u 2 s = some { command files u 2 t with
        nCfgLine := (command files u 2 t).nCfgLine + 1 } := by
  obtain ⟨szLine, pLine, hread, hshows⟩ := readLine_eof hl hfits hs.size
  refine ⟨{ s with szLine := szLine.set pLine 0, fds := (fd, []) :: fds, bEof := true },
    hs.desc, rfl, hs.chain, rfl, rfl, hshows, ?_⟩
  rw [turn, hs.files, hs.desc, List.lookup_cons_self, Option.map_some, hread]
  simp [setFd, hs.chain]

/-! ## Runs -/

/-- A chained file is read, and then the one that chained it. -/
def Resumes (files : Str → Option Bytes) (u : User) (d : ℕ) : Prop :=
  ∀ s fd f cfg g fds cfgs n, State.Reads s fd f ((cfg.nFileDesc, g) :: fds) (cfg :: cfgs) n →
    cfgs.length + d = maxChains → Fits 0 f →
    ∃ s', Turns State.bEof (turn files u 2) s s' ∧
      s'.Reads cfg.nFileDesc g fds cfgs (cfg.nCfgLine + 1) ∧ Logged s s' (ended files d f)

/-- A line that is ended, with the file that it chains. -/
theorem turns_line (hopen : ∀ name f, files name = some f → Fits 0 f)
    (hsub : 0 < d → Resumes files u d) (hs : s.Reads fd (l ++ 10 :: f) fds cfgs n)
    (hd : cfgs.length + d = maxChains) (hl : 10 ∉ l) (hfits : Fits 0 (l ++ 10 :: f)) :
    ∃ s', Turns State.bEof (turn files u 2) s s' ∧ s'.Reads fd f fds cfgs (n + 1) ∧
      Logged s s' (lineCalls files (ended files d) l) := by
  obtain ⟨t, ht, hjournal, hshows, hturn⟩ := turn_line files u hs hl hfits
  have hturns : Turns State.bEof (turn files u 2) s _ := .single hs.eof hturn
  have hchains : t.nCurChain + d = maxChains := by rw [State.nCurChain, ht.chain, hd]
  have hdoes := command_does files u hshows
  generalize command files u 2 t = r at hdoes hturns
  cases hdoes with
  | skip asking =>
    refine ⟨_, hturns, ⟨ht.desc, ht.files, ht.chain, ?_, ht.eof, hshows.1⟩, [.skip], ?_, ?_⟩
    · rw [ht.line]
    · rw [hjournal]
    · exact Or.inl List.mem_cons_self
  | @stay asking j hj hc =>
    refine ⟨_, hturns, ⟨ht.desc, ht.files, ht.chain, ?_, ht.eof, hshows.1⟩, j, ?_, Or.inr ?_⟩
    · rw [ht.line]
    · rw [hjournal]
    · rw [hj, lineCalls]
      rcases hc with hc | hc
      · rw [hc, Option.elim_none, List.append_nil]
      · obtain rfl : d = 0 := by omega
        cases chained files l <;> simp [ended]
  | @chain asking j g hj hg hlt =>
    obtain ⟨p, hp, hreads, hpj⟩ : ∃ p, Turns State.bEof (turn files u 2) s p ∧
        p.Reads (freeFd t.fds) g ((fd, f) :: fds) (⟨fd, n⟩ :: cfgs) 1 ∧
        p.journal = s.journal ++ j :=
      ⟨_, hturns, ⟨rfl, by rw [ht.files], by rw [ht.desc, ht.line, ht.chain], rfl, ht.eof,
        hshows.1⟩, by rw [hjournal]⟩
    obtain ⟨s', hrun, hreads', hlog⟩ := hsub (by omega) p (freeFd t.fds) g ⟨fd, n⟩ f fds cfgs 1
      hreads hd (chained_fits hopen hg)
    refine ⟨s', hp.trans hrun, hreads', ?_⟩
    rw [lineCalls, hg, Option.elim_some, ← hj]
    exact Logged.trans ⟨j, hpj, Or.inr rfl⟩ hlog

/-- **A chained file** is executed up to its last line that is ended, and then the file that chained
it is read on, behind the line that did. -/
theorem resumes (hopen : ∀ name f, files name = some f → Fits 0 f) (u : User) (d : ℕ) :
    Resumes files u (d + 1) := by
  have hfile (d : ℕ) (hsub : 0 < d → Resumes files u d) : Resumes files u (d + 1) := by
    intro s fd f cfg g fds cfgs n hs hd hfits
    induction f using lines_induct (10 : UInt8) generalizing s n with
    | last l hl =>
      obtain ⟨t, ht, hjournal, hturn⟩ := turn_resume files u hs hl hfits
      refine ⟨t, .single hs.eof hturn, ht, [], by rw [hjournal, List.append_nil], Or.inr ?_⟩
      rw [ended, List.splitOn_eq_singleton hl]
      rfl
    | line l f hl ih =>
      obtain ⟨s', hturns, hs', hlog⟩ := turns_line hopen hsub hs
        (by rw [List.length_cons]; omega) hl hfits
      obtain ⟨s'', hturns', hs'', hlog'⟩ := ih s' (n + 1) hs' (readLine_line hl hfits hs.size).1
      refine ⟨s'', hturns.trans hturns', hs'', ?_⟩
      rw [ended, dropLast_splitOn hl, List.flatMap_cons]
      exact hlog.trans hlog'
  induction d with
  | zero => exact hfile 0 fun h => absurd h (Nat.lt_irrefl 0)
  | succ d ih => exact hfile (d + 1) fun _ => ih

/-- The main file, up to its end. -/
theorem turns_main (hopen : ∀ name f, files name = some f → Fits 0 f) (hs : s.Reads fd f fds [] n)
    (hfits : Fits 0 f) :
    ∃ s', Turns State.bEof (turn files u 2) s s' ∧ s'.bEof = true ∧
      Logged s s' ((f.splitOn 10).dropLast.flatMap (lineCalls files (ended files maxChains)) ++
        (lineCall (lastLine 10 f)).toList) ∧
      (Event.skip ∈ s'.journal ∨
        if chained files (lastLine 10 f) = none then
          closeFd s'.fds s'.nFileDesc = fds ∧ s'.nCurChain = 0
        else s'.nCurChain = 1) := by
  induction f using lines_induct (10 : UInt8) generalizing s n with
  | last l hl =>
    obtain ⟨t, hfd, hfds, hchain, heof, hjournal, hshows, hturn⟩ :=
      turn_last files u hs hl hfits
    have hturns : Turns State.bEof (turn files u 2) s _ := .single hs.eof hturn
    have hdoes := command_does files u hshows
    generalize command files u 2 t = r at hdoes hturns
    rw [List.splitOn_eq_singleton hl, lastLine_single hl]
    cases hdoes with
    | skip asking =>
      refine ⟨_, hturns, heof, ⟨[.skip], by rw [hjournal], Or.inl List.mem_cons_self⟩, Or.inl ?_⟩
      exact List.mem_append_right _ List.mem_cons_self
    | @stay asking j hj hc =>
      refine ⟨_, hturns, heof, ⟨j, by rw [hjournal], Or.inr hj⟩, Or.inr ?_⟩
      rw [if_pos (hc.resolve_right (by rw [State.nCurChain, hchain]; decide))]
      refine ⟨?_, congrArg List.length hchain⟩
      simp [closeFd, hfds, hfd]
    | @chain asking j g hj hg hlt =>
      refine ⟨_, hturns, heof, ⟨j, by rw [hjournal], Or.inr hj⟩, Or.inr ?_⟩
      rw [if_neg (by simp [hg]), State.nCurChain, List.length_cons, hchain, List.length_nil]
  | line l f hl ih =>
    obtain ⟨s', hturns, hs', hlog⟩ := turns_line (d := maxChains) hopen
      (fun _ => resumes hopen u 4) hs rfl hl hfits
    obtain ⟨s'', hturns', heof, hlog', hend⟩ := ih hs' (readLine_line hl hfits hs.size).1
    rw [dropLast_splitOn hl, lastLine_line hl, List.flatMap_cons, List.append_assoc]
    exact ⟨s'', hturns.trans hturns', heof, hlog.trans hlog', hend⟩

/-! ## The pass -/

/-- What the pass finds: `szLine` with what is left from the passes before, no chained file, and a
journal in which nothing is yet. -/
structure State.Ready (s : State) : Prop where
  size : s.szLine.length = lineSize
  chain : s.cfgFile = []
  journal : s.journal = []

/-- All files are read in place, and closed. -/
structure Served (files : Str → Option Bytes) (main : Bytes) (s r : State) : Prop where
  order : calls r.journal = inPlace files (maxChains + 1) main
  closed : r.fds = s.fds
  unchained : r.nCurChain = 0

/-- The calls of the pass are those that there should be. -/
theorem calls_iff (hlast : chained files (lastLine 10 f) = none) :
    (f.splitOn 10).dropLast.flatMap (lineCalls files (ended files maxChains)) ++
        (lineCall (lastLine 10 f)).toList = inPlace files (maxChains + 1) f ↔
      MainFinished files f := by
  have hcall : (lineCall (lastLine 10 f)).toList =
      lineCalls files (inPlace files maxChains) (lastLine 10 f) := by
    rw [lineCalls, hlast, Option.elim_none, List.append_nil]
  rw [hcall, inPlace]
  conv_lhs => rw [splitOn_eq_lastLine 10 f, List.dropLast_concat, List.flatMap_append,
    List.flatMap_singleton, List.append_cancel_right_eq, flatMap_ended_iff (ended_eq_iff maxChains)]
  rw [MainFinished]
  conv_rhs => rw [splitOn_eq_lastLine 10 f, List.forall_mem_append, List.forall_mem_singleton]
  simp [hlast]

/-- **The second pass of `DoConfig`** comes to an end.  When the user has nothing skipped, it reads
all files in place and closes them exactly if nothing is to be done for the last line of a chained
file, and no file to be chained by that of the main file, as far as these are not ended. -/
theorem doConfig_iff (u : User) (names : List Str) {main : Bytes}
    (hopen : ∀ name f, files name = some f → Fits 0 f) (hmain : configFile files names = some main)
    (hs : s.Ready) :
    ∃ r, (∃ fuel, ∀ n ≥ fuel, doConfig files u names 2 n s = some r) ∧
      (Event.skip ∉ r.journal → (Served files main s r ↔ MainFinished files main)) := by
  have hfits : Fits 0 main := by
    obtain ⟨name, -, hname⟩ := List.exists_of_findSome?_eq_some hmain
    exact hopen name main hname
  obtain ⟨s', hturns, heof, ⟨j, hj, hlog⟩, hend⟩ := turns_main (u := u) (n := 0)
    (s := { s with fds := (freeFd s.fds, main) :: s.fds, nFileDesc := freeFd s.fds, nCfgLine := 0,
                   bEof := false })
    hopen ⟨rfl, rfl, hs.chain, rfl, rfl, hs.size⟩ hfits
  obtain ⟨fuel, hfuel⟩ := hturns.ends heof
  refine ⟨{ s' with fds := closeFd s'.fds s'.nFileDesc }, ⟨fuel, fun n hn => ?_⟩, fun hskip => ?_⟩
  · rw [doConfig, hmain]
    simp only [openFd, hfuel n hn, Option.map_some]
  · have hjournal : s'.journal = j := by rw [hj, hs.journal, List.nil_append]
    have hcalls := hlog.resolve_left (hjournal ▸ hskip)
    rw [← hjournal] at hcalls
    have hend := hend.resolve_left hskip
    constructor
    · intro hserved
      have hlast : chained files (lastLine 10 main) = none := by
        by_contra hne
        rw [if_neg hne] at hend
        exact absurd (hserved.unchained.symm.trans hend) (by decide)
      exact (calls_iff hlast).1 (hcalls.symm.trans hserved.order)
    · intro hfin
      rw [if_pos hfin.1] at hend
      exact ⟨hcalls.trans ((calls_iff hfin.1).2 hfin), hend.1, hend.2⟩

/-! ## Two files -/

/-- A disk with a configuration file `C` and another file `A`. -/
def twoFiles (main sub : String) (name : Str) : Option Bytes :=
  if name = bytes "C" then some (bytes main)
  else if name = bytes "A" then some (bytes sub)
  else none

theorem twoFiles_fits (main sub : String) (hmain : Fits 0 (bytes main)) (hsub : Fits 0 (bytes sub))
    (name : Str) (f : Bytes) (h : twoFiles main sub name = some f) : Fits 0 f := by
  rw [twoFiles] at h
  split_ifs at h
  · exact Option.some.inj h ▸ hmain
  · exact Option.some.inj h ▸ hsub

/-- Nobody presses a key. -/
def nobody : User := ⟨.other, fun _ => .yes, 0⟩

def State.start : State :=
  ⟨List.replicate lineSize 0, [], 0, [], 0, false, ⟨2, false, false, 0⟩, []⟩

theorem start_ready : State.start.Ready := ⟨List.length_replicate, rfl, rfl⟩

theorem doConfig_iff_two :
    ∃ r, (∃ fuel, ∀ n ≥ fuel,
        doConfig (twoFiles "CHAIN A\nSET B=1" "SET X=1\n") nobody [bytes "C"] 2 n .start = some r) ∧
      (Event.skip ∉ r.journal → Served (twoFiles "CHAIN A\nSET B=1" "SET X=1\n")
        (bytes "CHAIN A\nSET B=1") .start r) := by
  obtain ⟨r, hr, hiff⟩ := doConfig_iff nobody [bytes "C"]
    (twoFiles_fits "CHAIN A\nSET B=1" "SET X=1\n" (by decide) (by decide))
    rfl start_ready
  exact ⟨r, hr, fun hskip => (hiff hskip).2 (by decide)⟩

/-- The last line of a chained file is dropped when it is not ended. -/
theorem doConfig_drops :
    ¬ ∀ (files : Str → Option Bytes) (u : User) (names : List Str) (main : Bytes) (s r : State)
      (n : ℕ), (∀ name f, files name = some f → Fits 0 f) → configFile files names = some main →
      s.Ready → doConfig files u names 2 n s = some r → Event.skip ∉ r.journal →
      Served files main s r := by
  intro h
  have hrun : ∃ r,
      doConfig (twoFiles "CHAIN A\nSET B=1\n" "SET X=1") nobody [bytes "C"] 2 9 .start = some r ∧
        Event.skip ∉ r.journal ∧ calls r.journal ≠
          inPlace (twoFiles "CHAIN A\nSET B=1\n" "SET X=1") 6 (bytes "CHAIN A\nSET B=1\n") :=
    ⟨_, rfl, by decide, by decide⟩
  obtain ⟨r, hr, hskip, hne⟩ := hrun
  exact hne (h _ nobody [bytes "C"] _ _ r 9 (twoFiles_fits _ _ (by decide) (by decide)) rfl
    start_ready hr hskip).order

-- A last line of the main file that is not ended is executed, but what it chains is not read.
example : (doConfig (twoFiles "CHAIN A" "SET X=1\n") nobody [bytes "C"] 2 9 .start).map
    (fun r => (calls r.journal, r.fds.length, r.nCurChain)) =
      some ([(.cmdChain, bytes "CHAIN A")], 1, 1) := by
  decide

end Chain
end Config
end BurdahDos
