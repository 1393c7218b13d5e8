import BurdahDos.Shell.Redirect
import Mathlib

/-!
# Redirection is undone

`parsecommandline_undone`: when `parsecommandline` returns, stdin and stdout are the open files
that they were, exactly if `dup` has saved what is then closed.  The result of `dup` is not looked
at, and -1 says that nothing has been saved.
-/

set_option autoImplicit false

namespace BurdahDos
namespace Shell

namespace Session

/-! ## Handles -/

theorem file_setFile (s : Session) (h k : ℕ) (f : Option ℕ) :
    (s.setFile h f).file k = if k = h ∧ h < s.handles.length then f else s.file k := by
  rw [file, file, setFile, List.getD_eq_getElem?_getD, List.getElem?_set]
  by_cases hk : h = k
  · subst hk
    by_cases hlt : h < s.handles.length
    · rw [if_pos rfl, if_pos hlt, if_pos ⟨rfl, hlt⟩]
      rfl
    · rw [if_pos rfl, if_neg hlt, if_neg fun hand => hlt hand.2, List.getD_eq_getElem?_getD,
        List.getElem?_eq_none (Nat.le_of_not_lt hlt)]
  · rw [if_neg hk, if_neg fun hand => hk hand.1.symm, List.getD_eq_getElem?_getD]

theorem file_setFile_of_ne (s : Session) {h k : ℕ} (f : Option ℕ) (hk : k ≠ h) :
    (s.setFile h f).file k = s.file k := by
  rw [file_setFile, if_neg fun hand => hk hand.1]

theorem file_setFile_self (s : Session) {h : ℕ} (f : Option ℕ) (hlt : h < s.handles.length) :
    (s.setFile h f).file h = f := by
  rw [file_setFile, if_pos ⟨rfl, hlt⟩]

@[simp] theorem length_setFile (s : Session) (h : ℕ) (f : Option ℕ) :
    (s.setFile h f).handles.length = s.handles.length :=
  List.length_set

theorem lt_length {s : Session} {h f : ℕ} (hf : s.file h = some f) : h < s.handles.length := by
  by_contra hge
  rw [file, List.getD_eq_default _ _ (Nat.le_of_not_lt hge)] at hf
  cases hf

theorem lowest_some {s : Session} {n : ℕ} (h : s.lowest = some n) :
    n < s.handles.length ∧ s.file n = none ∧ ∀ m < n, s.file m ≠ none := by
  obtain ⟨hlt, hnone, hbefore⟩ := List.findIdx?_eq_some_iff_getElem.mp h
  refine ⟨hlt, ?_, fun m hm => ?_⟩
  · rw [file, List.getD_eq_getElem _ _ hlt]
    exact Option.isNone_iff_eq_none.mp hnone
  · have hopen := hbefore m hm
    rw [file, List.getD_eq_getElem _ _ (Nat.lt_trans hm hlt)]
    simpa using hopen

/-- A handle that is closed is not below the lowest one. -/
theorem lowest_le {s : Session} {n m : ℕ} (h : s.lowest = some n) (hm : s.file m = none) : n ≤ m :=
  Nat.le_of_not_lt fun hlt => (lowest_some h).2.2 m hlt hm

end Session

/-! ## What stays as it is -/

/-- Nothing but the two lowest handles is different. -/
structure Frame (s s' : Session) : Prop where
  oldinfd : s'.oldinfd = s.oldinfd
  oldoutfd : s'.oldoutfd = s.oldoutfd
  length : s'.handles.length = s.handles.length
  file : ∀ h, 2 ≤ h → s'.file h = s.file h

theorem Frame.refl (s : Session) : Frame s s := ⟨rfl, rfl, rfl, fun _ _ => rfl⟩

theorem Frame.trans {s s' s'' : Session} (h : Frame s s') (h' : Frame s' s'') : Frame s s'' :=
  ⟨h'.oldinfd.trans h.oldinfd, h'.oldoutfd.trans h.oldoutfd, h'.length.trans h.length,
    fun k hk => (h'.file k hk).trans (h.file k hk)⟩

theorem Frame.setFile (s : Session) {h : ℕ} (hlt : h < 2) (f : Option ℕ) : Frame s (s.setFile h f) :=
  ⟨rfl, rfl, s.length_setFile h f, fun _ hk => s.file_setFile_of_ne f (by omega)⟩

theorem Frame.dup2 (s : Session) (oldfd : Option ℕ) {newfd : ℕ} (hlt : newfd < 2) :
    Frame s (s.dup2 oldfd newfd) := by
  rw [Session.dup2]
  split
  · exact .refl s
  · exact .setFile s hlt _

/-- A new file gets one of the two lowest handles if one of them is closed. -/
theorem Frame.newFile {s : Session} {h : ℕ} (hlt : h < 2) (hnone : s.file h = none) (ok : Bool) :
    Frame s (s.newFile ok).2 := by
  rw [Session.newFile]
  cases hlow : s.lowest with
  | none => exact .refl s
  | some n =>
    have hn : n < 2 := Nat.lt_of_le_of_lt (Session.lowest_le hlow hnone) hlt
    cases ok with
    | false => exact .refl s
    | true =>
      have hframe := Frame.setFile s hn (some s.next)
      exact ⟨hframe.oldinfd, hframe.oldoutfd, hframe.length, hframe.file⟩

theorem Frame.creat {s : Session} {h : ℕ} (hlt : h < 2) (hnone : s.file h = none) :
    Frame s s.creat.2 := by
  have hframe := Frame.newFile (s := { s with creats := (ask true s.creats).2 }) hlt hnone
    (ask true s.creats).1
  exact ⟨hframe.oldinfd, hframe.oldoutfd, hframe.length, hframe.file⟩

theorem Frame.openFile {s : Session} {h : ℕ} (hlt : h < 2) (hnone : s.file h = none) :
    Frame s s.openFile.2 := by
  have hframe := Frame.newFile (s := { s with opens := (ask true s.opens).2 }) hlt hnone
    (ask true s.opens).1
  exact ⟨hframe.oldinfd, hframe.oldoutfd, hframe.length, hframe.file⟩

/-- Commands that leave handles as they have found them. -/
structure Tame (docommand : Str → Session → Session) : Prop where
  handles : ∀ cmd s, (docommand cmd s).handles = s.handles
  oldinfd : ∀ cmd s, (docommand cmd s).oldinfd = s.oldinfd
  oldoutfd : ∀ cmd s, (docommand cmd s).oldoutfd = s.oldoutfd
  temps : ∀ cmd s, (docommand cmd s).temps = s.temps
  next : ∀ cmd s, s.next ≤ (docommand cmd s).next

theorem Tame.file {docommand : Str → Session → Session} (h : Tame docommand) (cmd : Str) (s : Session)
    (k : ℕ) : (docommand cmd s).file k = s.file k := by
  rw [Session.file, Session.file, h.handles]

theorem Tame.frame {docommand : Str → Session → Session} (h : Tame docommand) (cmd : Str)
    (s : Session) : Frame s (docommand cmd s) :=
  ⟨h.oldinfd cmd s, h.oldoutfd cmd s, congrArg _ (h.handles cmd s), fun k _ => h.file cmd s k⟩

theorem Session.killtmpfn_file (s : Session) (fn : Option Str) (k : ℕ) :
    (s.killtmpfn fn).file k = s.file k := by
  cases fn <;> rfl

theorem Frame.killtmpfn (s : Session) (fn : Option Str) : Frame s (s.killtmpfn fn) := by
  cases fn <;> exact ⟨rfl, rfl, rfl, fun _ _ => rfl⟩

theorem Frame.tmpfn (s : Session) : Frame s s.tmpfn.2 := by
  rw [Session.tmpfn]
  split <;> exact ⟨rfl, rfl, rfl, fun _ _ => rfl⟩

section Commands

variable {docommand : Str → Session → Session}

theorem pipe_frame (hcmd : Tame docommand) (fname1 : Option Str) (cmd : Str) {s : Session}
    (hlen : 2 ≤ s.handles.length) (hone : s.file 1 = none) : Frame s (pipe docommand fname1 cmd s) := by
  rw [pipe]
  have hrun := (Frame.creat Nat.one_lt_two hone).trans (hcmd.frame cmd s.creat.2)
  generalize docommand cmd s.creat.2 = s₁ at hrun
  have hout := (hrun.trans (.setFile s₁ Nat.one_lt_two none)).trans
    (.dup2 (s₁.close 1) s₁.oldoutfd Nat.one_lt_two)
  generalize (s₁.close 1).dup2 s₁.oldoutfd 1 = s₂ at hout
  have hin := (hout.trans (.setFile s₂ Nat.two_pos none)).trans (.killtmpfn (s₂.close 0) fname1)
  have hzero : ((s₂.close 0).killtmpfn fname1).file 0 = none := by
    rw [Session.killtmpfn_file, Session.close, Session.file_setFile_self]
    rw [hout.length]
    omega
  exact hin.trans (.openFile Nat.two_pos hzero)

theorem close_tmpfn_file (s : Session) (hlen : 2 ≤ s.handles.length) :
    (s.close 1).tmpfn.2.file 1 = none := by
  have hclosed : (s.close 1).file 1 = none := s.file_setFile_self none (by omega)
  rw [Session.tmpfn]
  split <;> exact hclosed

theorem pipes_frame (hcmd : Tame docommand) : ∀ (cmds : List Str) (fname1 : Option Str)
    {s : Session}, 2 ≤ s.handles.length → Frame s (pipes docommand cmds fname1 s).2.2
  | [], _, s, _ => .refl s
  | cmd :: cmds, fname1, s, hlen => by
    have hclose : Frame s (s.close 1).tmpfn.2 :=
      (Frame.setFile s Nat.one_lt_two none).trans (.tmpfn (s.close 1))
    have hone := close_tmpfn_file s hlen
    rw [pipes]
    generalize (s.close 1).tmpfn = p at hclose hone
    obtain ⟨fname0, s₁⟩ := p
    dsimp only at hclose hone
    have hlen₁ : 2 ≤ s₁.handles.length := hclose.length ▸ hlen
    cases fname0 with
    | none => exact hclose
    | some fname0 =>
      have hpipe := pipe_frame hcmd fname1 cmd hlen₁ hone
      exact (hclose.trans hpipe).trans
        (pipes_frame hcmd cmds (some fname0) (hpipe.length ▸ hlen₁))

/-! ## What is held -/

/-- What is needed to get back to the handles of `e`: what is not in place has been saved. -/
structure Held (e s : Session) : Prop where
  length : s.handles.length = e.handles.length
  file : ∀ h, 2 ≤ h → s.oldinfd ≠ some h → s.oldoutfd ≠ some h → s.file h = e.file h
  inSaved : ∀ a, s.oldinfd = some a → 2 ≤ a ∧ e.file a = none ∧ s.file a = e.file 0
  outSaved : ∀ b, s.oldoutfd = some b → 2 ≤ b ∧ e.file b = none ∧ s.file b = e.file 1
  distinct : s.oldinfd = none ∨ s.oldinfd ≠ s.oldoutfd
  inPlace : s.oldinfd = none → s.file 0 = e.file 0
  outPlace : s.oldoutfd = none → s.file 1 = e.file 1

theorem Held.refl {e : Session} (hin : e.oldinfd = none) (hout : e.oldoutfd = none) : Held e e :=
  ⟨rfl, fun _ _ _ _ => rfl, fun a ha => absurd (hin.symm.trans ha) (Option.some_ne_none a).symm,
    fun b hb => absurd (hout.symm.trans hb) (Option.some_ne_none b).symm, Or.inl hin, fun _ => rfl,
    fun _ => rfl⟩

/-- A change of the two lowest handles does no harm if they have been saved. -/
theorem Held.frame {e s s' : Session} (h : Held e s) (hf : Frame s s')
    (hin : s.oldinfd = none → s'.file 0 = s.file 0) (hout : s.oldoutfd = none → s'.file 1 = s.file 1) :
    Held e s' where
  length := hf.length.trans h.length
  file k hk hne hne' :=
    (hf.file k hk).trans (h.file k hk (hf.oldinfd ▸ hne) (hf.oldoutfd ▸ hne'))
  inSaved a ha := by
    obtain ⟨hle, hnone, hfile⟩ := h.inSaved a (hf.oldinfd ▸ ha)
    exact ⟨hle, hnone, (hf.file a hle).trans hfile⟩
  outSaved b hb := by
    obtain ⟨hle, hnone, hfile⟩ := h.outSaved b (hf.oldoutfd ▸ hb)
    exact ⟨hle, hnone, (hf.file b hle).trans hfile⟩
  distinct := by
    rw [hf.oldinfd, hf.oldoutfd]
    exact h.distinct
  inPlace ha := (hin (hf.oldinfd ▸ ha)).trans (h.inPlace (hf.oldinfd ▸ ha))
  outPlace hb := (hout (hf.oldoutfd ▸ hb)).trans (h.outPlace (hf.oldoutfd ▸ hb))

/-- Stdin and stdout are open. -/
structure Ready (e : Session) : Prop where
  stdin : e.file 0 ≠ none
  stdout : e.file 1 ≠ none

theorem Ready.length {e : Session} (h : Ready e) : 2 ≤ e.handles.length := by
  obtain ⟨f, hf⟩ := Option.ne_none_iff_exists'.mp h.stdout
  exact Session.lt_length hf

/-- A handle is copied back from where it has been saved, and that one is closed. -/
theorem copied_file {s : Session} {fd newfd f : ℕ} (hf : s.file fd = some f) (hne : fd ≠ newfd)
    (hlt : newfd < s.handles.length) (k : ℕ) :
    ((((s.close newfd).dup2 (some fd) newfd).close fd).file k) =
      if k = fd then none else if k = newfd then some f else s.file k := by
  have hfd := Session.lt_length hf
  have hsaved : (s.close newfd).file fd = some f := (s.file_setFile_of_ne none hne).trans hf
  rw [Session.dup2, Option.bind_some, hsaved]
  dsimp only
  rw [Session.close, Session.file_setFile, Session.file_setFile, Session.close,
    Session.file_setFile, Session.length_setFile, Session.length_setFile]
  split_ifs <;> first | rfl | omega

/-- What stays as it is when a handle is copied back. -/
theorem copied_frame (s : Session) (fd : Option ℕ) {newfd : ℕ} (hlt : newfd < 2) (fd' : ℕ) :
    (((s.close newfd).dup2 fd newfd).close fd').handles.length = s.handles.length ∧
      (((s.close newfd).dup2 fd newfd).close fd').oldinfd = s.oldinfd ∧
      (((s.close newfd).dup2 fd newfd).close fd').oldoutfd = s.oldoutfd := by
  have hframe := (Frame.setFile s hlt none).trans (.dup2 (s.close newfd) fd hlt)
  exact ⟨(Session.length_setFile _ _ _).trans hframe.length, hframe.oldinfd, hframe.oldoutfd⟩

theorem restoreIn_held {e s : Session} (hready : Ready e) (h : Held e s) :
    Held e (restoreIn s) ∧ (restoreIn s).oldinfd = none ∧ (restoreIn s).oldoutfd = s.oldoutfd := by
  rw [restoreIn]
  cases hin : s.oldinfd with
  | none => exact ⟨h, hin, rfl⟩
  | some a =>
    obtain ⟨hle, hnone, hfile⟩ := h.inSaved a hin
    obtain ⟨f, hf⟩ := Option.ne_none_iff_exists'.mp hready.stdin
    have hlen : 2 ≤ s.handles.length := h.length ▸ hready.length
    have hfiles := @copied_file _ _ 0 _ (hfile.trans hf) (by omega) (by omega)
    obtain ⟨hlength, -, hout⟩ := copied_frame s (some a) Nat.two_pos a
    have hne : ∀ b, s.oldoutfd = some b → b ≠ a := fun b hb heq =>
      (h.distinct.resolve_left (by rw [hin]; exact Option.some_ne_none a)) (by rw [hin, hb, heq])
    refine ⟨⟨hlength.trans h.length, fun k hk _ hkout => (hfiles k).trans ?_,
      fun a' ha' => (nomatch ha'), fun b hb => ?_, Or.inl rfl, fun _ => (hfiles 0).trans ?_,
      fun hb => (hfiles 1).trans ?_⟩, rfl, hout⟩
    · rcases eq_or_ne k a with rfl | hka
      · rw [if_pos rfl, hnone]
      · rw [if_neg hka, if_neg (by omega)]
        exact h.file k hk (fun heq => hka (Option.some.inj (hin.symm.trans heq)).symm)
          fun heq => hkout (hout.trans heq)
    · have hb := hout.symm.trans hb
      obtain ⟨hble, hbnone, hbfile⟩ := h.outSaved b hb
      exact ⟨hble, hbnone, (hfiles b).trans (by rw [if_neg (hne b hb), if_neg (by omega), hbfile])⟩
    · rw [if_neg (by omega), if_pos rfl, hf]
    · rw [if_neg (by omega), if_neg (by omega)]
      exact h.outPlace (hout.symm.trans hb)

theorem restoreOut_held {e s : Session} (hready : Ready e) (h : Held e s) :
    Held e (restoreOut s) ∧ (restoreOut s).oldoutfd = none ∧ (restoreOut s).oldinfd = s.oldinfd := by
  rw [restoreOut]
  cases hout : s.oldoutfd with
  | none => exact ⟨h, hout, rfl⟩
  | some b =>
    obtain ⟨hle, hnone, hfile⟩ := h.outSaved b hout
    obtain ⟨f, hf⟩ := Option.ne_none_iff_exists'.mp hready.stdout
    have hlen : 2 ≤ s.handles.length := h.length ▸ hready.length
    have hfiles := @copied_file _ _ 1 _ (hfile.trans hf) (by omega) (by omega)
    obtain ⟨hlength, hin, -⟩ := copied_frame s (some b) Nat.one_lt_two b
    have hne : ∀ a, s.oldinfd = some a → a ≠ b := fun a ha heq =>
      (h.distinct.resolve_left (by rw [ha]; exact Option.some_ne_none a)) (by rw [ha, hout, heq])
    refine ⟨⟨hlength.trans h.length, fun k hk hkin _ => (hfiles k).trans ?_, fun a ha => ?_,
      fun b' hb' => (nomatch hb'), eq_or_ne _ _, fun ha => (hfiles 0).trans ?_,
      fun _ => (hfiles 1).trans ?_⟩, rfl, hin⟩
    · rcases eq_or_ne k b with rfl | hkb
      · rw [if_pos rfl, hnone]
      · rw [if_neg hkb, if_neg (by omega)]
        exact h.file k hk (fun heq => hkin (hin.trans heq))
          fun heq => hkb (Option.some.inj (hout.symm.trans heq)).symm
    · have ha := hin.symm.trans ha
      obtain ⟨hale, hanone, hafile⟩ := h.inSaved a ha
      exact ⟨hale, hanone, (hfiles a).trans (by rw [if_neg (hne a ha), if_neg (by omega), hafile])⟩
    · rw [if_neg (by omega), if_neg (by omega)]
      exact h.inPlace (hin.symm.trans ha)
    · rw [if_neg (by omega), if_pos rfl, hf]

/-- Stdin and stdout are in place again. -/
structure Final (e s : Session) : Prop where
  held : Held e s
  oldinfd : s.oldinfd = none
  oldoutfd : s.oldoutfd = none

theorem Final.file {e s : Session} (h : Final e s) : ∀ k, s.file k = e.file k
  | 0 => h.held.inPlace h.oldinfd
  | 1 => h.held.outPlace h.oldoutfd
  | k + 2 => h.held.file (k + 2) (by omega) (by rw [h.oldinfd]; exact (Option.some_ne_none _).symm)
      (by rw [h.oldoutfd]; exact (Option.some_ne_none _).symm)

theorem Held.killtmpfn {e s : Session} (h : Held e s) (fn : Option Str) : Held e (s.killtmpfn fn) :=
  h.frame (.killtmpfn s fn) (fun _ => s.killtmpfn_file fn 0) fun _ => s.killtmpfn_file fn 1

theorem abort_final {e s : Session} (hready : Ready e) (h : Held e s) (fname0 fname1 : Option Str) :
    Final e (abort fname0 fname1 s) := by
  obtain ⟨hin, hinfd, -⟩ := restoreIn_held hready h
  obtain ⟨hout, houtfd, hinfd'⟩ := restoreOut_held hready hin
  have hframe := (Frame.killtmpfn (restoreOut (restoreIn s)) fname1).trans
    (.killtmpfn _ fname0)
  exact ⟨(hout.killtmpfn fname1).killtmpfn fname0, hframe.oldinfd.trans (hinfd'.trans hinfd),
    hframe.oldoutfd.trans houtfd⟩

/-! ## Saving -/

/-- `dup` fails, or copies a handle to the lowest one that is closed. -/
theorem dup_cases (h : ℕ) (s : Session) :
    (s.dup h).1 = none ∧ (s.dup h).2 = { s with dups := (ask true s.dups).2 } ∨
      ∃ n f, (s.dup h).1 = some n ∧ s.file h = some f ∧ s.lowest = some n ∧
        (s.dup h).2 = { s.setFile n (some f) with dups := (ask true s.dups).2 } := by
  rw [Session.dup]
  dsimp only
  split
  · rename_i f n hf hn
    split
    · exact Or.inr ⟨n, f, rfl, hf, hn, rfl⟩
    · exact Or.inl ⟨rfl, rfl⟩
  · exact Or.inl ⟨rfl, rfl⟩

/-- The copy that `dup` makes is none of the handles that are needed. -/
theorem lowest_ge {s : Session} {n : ℕ} (hn : s.lowest = some n) (h0 : s.file 0 ≠ none)
    (h1 : s.file 1 ≠ none) : 2 ≤ n := by
  obtain ⟨-, hnone, -⟩ := Session.lowest_some hn
  rcases Nat.lt_or_ge n 2 with hlt | hge
  · have hn : n = 0 ∨ n = 1 := by omega
    rcases hn with rfl | rfl
    · exact absurd hnone h0
    · exact absurd hnone h1
  · exact hge

/-- The shell has nothing saved. -/
structure Idle (e : Session) : Prop where
  oldinfd : e.oldinfd = none
  oldoutfd : e.oldoutfd = none

/-- Stdin is saved, if `dup` succeeds. -/
theorem saveIn_held {e : Session} (hready : Ready e) (hidle : Idle e) (r : Redirection) :
    Held e (saveIn r e) ∧ (saveIn r e).oldoutfd = none ∧ (saveIn r e).file 0 = e.file 0 ∧
      (saveIn r e).next = e.next ∧ (saveIn r e).tmps = e.tmps := by
  have h := Held.refl hidle.oldinfd hidle.oldoutfd
  rw [saveIn]
  split
  · rcases dup_cases 0 e with ⟨hfd, hs⟩ | ⟨n, f, hfd, hf, hn, hs⟩
    · rw [hfd, hs]
      have hframe : Frame e { e with dups := (ask true e.dups).2, oldinfd := none } :=
        ⟨hidle.oldinfd.symm, rfl, rfl, fun _ _ => rfl⟩
      exact ⟨h.frame hframe (fun _ => rfl) fun _ => rfl, hidle.oldoutfd, rfl, rfl, rfl⟩
    · have hge := lowest_ge hn hready.stdin hready.stdout
      obtain ⟨hlt, hnone, -⟩ := Session.lowest_some hn
      rw [hfd, hs]
      refine ⟨⟨e.length_setFile n _, fun k hk hkin _ => ?_, fun a ha => ?_, fun b hb => ?_, ?_,
        fun ha => (nomatch ha), fun _ => ?_⟩, hidle.oldoutfd, ?_, rfl, rfl⟩
      · exact e.file_setFile_of_ne _ fun heq => hkin (congrArg some heq.symm)
      · obtain rfl := Option.some.inj ha
        exact ⟨hge, hnone, (e.file_setFile_self _ hlt).trans hf.symm⟩
      · exact absurd (hidle.oldoutfd.symm.trans hb) (Option.some_ne_none b).symm
      · exact Or.inr fun heq => absurd (hidle.oldoutfd.symm.trans heq.symm) (Option.some_ne_none n).symm
      · exact e.file_setFile_of_ne _ (by omega)
      · exact e.file_setFile_of_ne _ (by omega)
  · exact ⟨h, hidle.oldoutfd, rfl, rfl, rfl⟩

/-- Stdout is saved, if `dup` succeeds, with stdin open. -/
theorem saveOut_held {e s : Session} (hready : Ready e) (h : Held e s) (h0 : s.file 0 ≠ none)
    (hout : s.oldoutfd = none) (r : Redirection) :
    Held e (saveOut r s) ∧ (saveOut r s).oldinfd = s.oldinfd ∧
      (saveOut r s).file 0 = s.file 0 ∧ (saveOut r s).next = s.next := by
  have h1 : s.file 1 ≠ none := h.outPlace hout ▸ hready.stdout
  rw [saveOut]
  split
  · rcases dup_cases 1 s with ⟨hfd, hs⟩ | ⟨n, f, hfd, hf, hn, hs⟩
    · rw [hfd, hs]
      have hframe : Frame s { s with dups := (ask true s.dups).2, oldoutfd := none } :=
        ⟨rfl, hout.symm, rfl, fun _ _ => rfl⟩
      exact ⟨h.frame hframe (fun _ => rfl) fun _ => rfl, rfl, rfl, rfl⟩
    · have hge := lowest_ge hn h0 h1
      obtain ⟨hlt, hnone, -⟩ := Session.lowest_some hn
      have hsaved : ∀ a, s.oldinfd = some a → a ≠ n := fun a ha heq => by
        have hfile := (h.inSaved a ha).2.2
        rw [heq, hnone] at hfile
        exact hready.stdin hfile.symm
      rw [hfd, hs]
      refine ⟨⟨(s.length_setFile n _).trans h.length, fun k hk hkin hkout => ?_, fun a ha => ?_,
        fun b hb => ?_, ?_, fun ha => ?_, fun hb => (nomatch hb)⟩, rfl, ?_, rfl⟩
      · have hkn : k ≠ n := fun heq => hkout (congrArg some heq.symm)
        exact (s.file_setFile_of_ne _ hkn).trans
          (h.file k hk hkin (by rw [hout]; exact (Option.some_ne_none k).symm))
      · obtain ⟨hale, hanone, hafile⟩ := h.inSaved a ha
        exact ⟨hale, hanone, (s.file_setFile_of_ne _ (hsaved a ha)).trans hafile⟩
      · obtain rfl := Option.some.inj hb
        refine ⟨hge, ?_, (s.file_setFile_self _ hlt).trans (hf.symm.trans (h.outPlace hout))⟩
        rw [← h.file n hge (fun heq => hsaved n heq rfl) (by rw [hout]; exact (Option.some_ne_none n).symm)]
        exact hnone
      · exact (eq_or_ne s.oldinfd none).imp id fun _ heq => hsaved n heq rfl
      · exact (s.file_setFile_of_ne _ (by omega)).trans (h.inPlace ha)
      · exact s.file_setFile_of_ne _ (by omega)
  · exact ⟨h, rfl, rfl, rfl⟩

theorem saveOut_tmps (r : Redirection) (s : Session) : (saveOut r s).tmps = s.tmps := by
  rw [saveOut]
  split
  · rcases dup_cases 1 s with ⟨-, hs⟩ | ⟨n, f, -, -, -, hs⟩
    · rw [hs]
    · rw [hs]; rfl
  · rfl

theorem tmpfn_fst (s : Session) : s.tmpfn.1 = (ask (some []) s.tmps).1 := by
  rw [Session.tmpfn]
  split
  · rename_i heq
    rw [heq]
  · rename_i heq
    rw [heq]

theorem saveOut_fd {r : Redirection} {s : Session} (hr : r.ofn.isSome || !r.pipes.isEmpty) :
    (saveOut r s).oldoutfd = (s.dup 1).1 := by
  rw [saveOut, if_pos hr]

theorem saveIn_fd {r : Redirection} {s : Session} (hr : r.ifn.isSome || !r.pipes.isEmpty) :
    (saveIn r s).oldinfd = (s.dup 0).1 := by
  rw [saveIn, if_pos hr]

/-! ## What is saved is restored -/

/-- A handle that is open is not given to another file. -/
theorem newFile_file {s : Session} {k : ℕ} (hk : s.file k ≠ none) (ok : Bool) :
    (s.newFile ok).2.file k = s.file k := by
  rw [Session.newFile]
  cases hn : s.lowest with
  | none => rfl
  | some n =>
    cases ok with
    | false => rfl
    | true =>
      refine s.file_setFile_of_ne _ fun heq => hk ?_
      rw [heq]
      exact (Session.lowest_some hn).2.1

/-- Without a new file nothing is different. -/
theorem newFile_none {s : Session} {ok : Bool} (h : (s.newFile ok).1 = none) :
    (s.newFile ok).2 = s := by
  rw [Session.newFile] at h ⊢
  cases hn : s.lowest with
  | none => rfl
  | some n =>
    cases ok with
    | false => rfl
    | true => rw [hn] at h; cases h

/-- A new file is behind its handle. -/
theorem newFile_some {s : Session} {ok : Bool} {n : ℕ} (h : (s.newFile ok).1 = some n) :
    (s.newFile ok).2.file n = some s.next := by
  rw [Session.newFile] at h ⊢
  cases hn : s.lowest with
  | none => rw [hn] at h; cases h
  | some m =>
    rw [hn] at h
    cases ok with
    | false => cases h
    | true =>
      obtain rfl := Option.some.inj h
      exact s.file_setFile_self _ (Session.lowest_some hn).1

theorem devopenOut_file {s : Session} {k : ℕ} (hk : s.file k ≠ none) (append : Bool) :
    (s.devopenOut append).2.file k = s.file k := by
  have hcreat : ∀ s : Session, s.file k ≠ none → s.creat.2.file k = s.file k := fun s hk =>
    newFile_file (s := { s with creats := (ask true s.creats).2 }) hk _
  have hopen : s.openFile.2.file k = s.file k :=
    newFile_file (s := { s with opens := (ask true s.opens).2 }) hk _
  rw [Session.devopenOut]
  split
  · generalize s.openFile = p at hopen
    obtain ⟨fd, s₁⟩ := p
    cases fd with
    | none => exact (hcreat s₁ (hopen ▸ hk)).trans hopen
    | some fd => exact hopen
  · exact hcreat s hk

theorem Frame.devopenOut {s : Session} (hone : s.file 1 = none) (append : Bool) :
    Frame s (s.devopenOut append).2 := by
  rw [Session.devopenOut]
  split
  · have hopen := Frame.openFile Nat.one_lt_two hone
    have hfail : s.openFile.1 = none → s.openFile.2.file 1 = none := fun hnone => by
      have heq : s.openFile.2 = { s with opens := (ask true s.opens).2 } :=
        newFile_none (s := { s with opens := (ask true s.opens).2 }) hnone
      rw [heq]
      exact hone
    generalize s.openFile = p at hopen hfail
    obtain ⟨fd, s₁⟩ := p
    cases fd with
    | none => exact hopen.trans (.creat Nat.one_lt_two (hfail rfl))
    | some fd => exact hopen
  · exact .creat Nat.one_lt_two hone

theorem Held.run (hcmd : Tame docommand) {e s : Session} (h : Held e s) (cmd : Str) : Held e (docommand cmd s) :=
  h.frame (hcmd.frame cmd s) (fun _ => hcmd.file cmd s 0) fun _ => hcmd.file cmd s 1

theorem lastCommand_final (hcmd : Tame docommand) {e s : Session} (hready : Ready e) (h : Held e s)
    {r : Redirection} (hout : r.ofn ≠ none → s.oldoutfd ≠ none) (fname1 : Option Str) :
    Final e (lastCommand docommand r fname1 s) := by
  rw [lastCommand]
  cases hofn : r.ofn with
  | none =>
    exact abort_final hready ((restoreOut_held hready h).1.run hcmd r.cmd) _ _
  | some name =>
    have hsaved := hout (by rw [hofn]; exact Option.some_ne_none name)
    have hlen : 2 ≤ s.handles.length := h.length ▸ hready.length
    have hclose : (s.close 1).file 0 = s.file 0 := s.file_setFile_of_ne none (by omega)
    have hopened : Held e ((s.close 1).devopenOut r.append).2 := by
      refine h.frame ((Frame.setFile s Nat.one_lt_two none).trans
        (.devopenOut (s.file_setFile_self none (by omega)) r.append)) (fun hin => ?_)
        fun hout => absurd hout hsaved
      rw [devopenOut_file ?_, hclose]
      rw [hclose, h.inPlace hin]
      exact hready.stdin
    dsimp only
    split
    · exact abort_final hready (hopened.run hcmd r.cmd) _ _
    · exact abort_final hready hopened _ _

/-- **What has been saved is restored**: the commands get back to the handles of `e`. -/
theorem runCommands_final (hcmd : Tame docommand) {e s : Session} (hready : Ready e) (h : Held e s)
    (h0 : s.file 0 ≠ none) (hidle : s.oldoutfd = none) {r : Redirection}
    (hout : r.ofn.isSome || !r.pipes.isEmpty → (s.dup 1).1 ≠ none)
    (hin : r.pipes ≠ [] → s.oldinfd ≠ none ∨ s.tmpfn.1 = none) :
    Final e (runCommands docommand r (saveOut r s)) := by
  obtain ⟨hheld, hinfd, hzero, -⟩ := saveOut_held hready h h0 hidle r
  have hofn : r.ofn ≠ none → (saveOut r s).oldoutfd ≠ none := fun hofn => by
    have hr : r.ofn.isSome || !r.pipes.isEmpty := by simp [Option.isSome_iff_ne_none.mpr hofn]
    exact saveOut_fd hr ▸ hout hr
  have htmp : ((saveOut r s).close 1).tmpfn.1 = s.tmpfn.1 := by
    rw [tmpfn_fst, tmpfn_fst, ← saveOut_tmps r s]
    rfl
  have hsaved : r.pipes ≠ [] → (saveOut r s).oldoutfd ≠ none := fun hpipes => by
    have hr : r.ofn.isSome || !r.pipes.isEmpty := by simp [hpipes]
    exact saveOut_fd hr ▸ hout hr
  rw [runCommands]
  generalize saveOut r s = s₁ at hheld hinfd hofn htmp hsaved
  have hlen : 2 ≤ s₁.handles.length := hheld.length ▸ hready.length
  cases hpipes : r.pipes with
  | nil => exact lastCommand_final hcmd hready hheld hofn none
  | cons cmd cmds =>
    rw [hpipes] at hin hsaved
    have hsaved := hsaved (List.cons_ne_nil cmd cmds)
    rcases hin (List.cons_ne_nil cmd cmds) with hin | hfail
    · have hframe := pipes_frame hcmd (cmd :: cmds) none hlen
      have hheld' := hheld.frame hframe (fun hno => absurd (hinfd ▸ hno) hin)
        fun hno => absurd hno hsaved
      generalize pipes docommand (cmd :: cmds) none s₁ = p at hframe hheld'
      obtain ⟨ok, fname1, s₂⟩ := p
      cases ok with
      | false => exact abort_final hready hheld' _ _
      | true =>
        exact lastCommand_final hcmd hready hheld' (fun h => hframe.oldoutfd ▸ hofn h) fname1
    · -- Nothing but stdout has been closed.
      rw [pipes]
      rw [hfail] at htmp
      have hclose : Frame s₁ (s₁.close 1).tmpfn.2 :=
        (Frame.setFile s₁ Nat.one_lt_two none).trans (.tmpfn (s₁.close 1))
      have hzero' : (s₁.close 1).tmpfn.2.file 0 = s₁.file 0 := by
        have hfile : (s₁.close 1).file 0 = s₁.file 0 := s₁.file_setFile_of_ne none (by omega)
        rw [Session.tmpfn]
        split <;> exact hfile
      have hheld' := hheld.frame hclose (fun _ => hzero') fun hno => absurd hno hsaved
      generalize (s₁.close 1).tmpfn = p at htmp hheld'
      obtain ⟨fname0, s₂⟩ := p
      obtain rfl : fname0 = none := htmp
      exact abort_final hready hheld' _ _

/-- Stdout is saved if it is to be redirected. -/
def OutSaved (r : Redirection) (s : Session) : Prop :=
  r.ofn.isSome || !r.pipes.isEmpty → (s.dup 1).1 ≠ none

/-- **What is closed has been saved.**  Stdin is closed for a file, and by a pipe once there is a
temporary file for it; stdout for both. -/
def Saves (r : Redirection) (e : Session) : Prop :=
  match r.ifn with
  | some _ => (e.dup 0).1 ≠ none ∧
      ((redirectIn (saveIn r e)).1 = true → OutSaved r (redirectIn (saveIn r e)).2)
  | none => OutSaved r (saveIn r e) ∧ (r.pipes ≠ [] → (e.dup 0).1 ≠ none ∨ e.tmpfn.1 = none)

theorem redirectIn_frame (s : Session) (hlen : 2 ≤ s.handles.length) : Frame s (redirectIn s).2 :=
  (Frame.setFile s Nat.two_pos none).trans
    (.openFile Nat.two_pos (s.file_setFile_self none (by omega)))

/-- Stdin is redirected to a file. -/
theorem redirectIn_held {e s : Session} (hready : Ready e) (h : Held e s) (hin : s.oldinfd ≠ none) :
    Held e (redirectIn s).2 ∧ (redirectIn s).2.oldoutfd = s.oldoutfd ∧
      ((redirectIn s).1 = true → (redirectIn s).2.file 0 ≠ none) := by
  have hlen : 2 ≤ s.handles.length := h.length ▸ hready.length
  have hframe := redirectIn_frame s hlen
  refine ⟨h.frame hframe (fun hno => absurd hno hin) fun hno => ?_, hframe.oldoutfd, fun hopen => ?_⟩
  · have hone : (s.close 0).file 1 = s.file 1 := s.file_setFile_of_ne none (by omega)
    refine (newFile_file (s := { s.close 0 with opens := (ask true s.opens).2 }) ?_ _).trans hone
    exact hone ▸ (h.outPlace hno ▸ hready.stdout)
  · have hfd : (s.close 0).openFile.1 = some 0 := beq_iff_eq.mp hopen
    have hfile := newFile_some (s := { s.close 0 with opens := (ask true s.opens).2 }) hfd
    exact fun hno => absurd (hfile.symm.trans hno) (Option.some_ne_none _)

theorem parsecommandline_final (hcmd : Tame docommand) {e : Session} (hready : Ready e)
    (hidle : Idle e) (line : Str) (strdups : List Bool)
    (hsaves : ∀ r, getRedirection line strdups = some r → Saves r e) :
    Final e (parsecommandline docommand true line strdups e) := by
  rw [parsecommandline]
  dsimp only
  cases hline : getRedirection line strdups with
  | none => exact abort_final hready (.refl hidle.oldinfd hidle.oldoutfd) _ _
  | some r =>
    have hsaves := hsaves r hline
    obtain ⟨hheld, hout, hzero, -, htmps⟩ := saveIn_held hready hidle r
    rw [Saves] at hsaves
    dsimp only
    cases hifn : r.ifn with
    | none =>
      rw [hifn] at hsaves
      refine runCommands_final hcmd hready hheld (hzero ▸ hready.stdin) hout hsaves.1 fun hpipes => ?_
      have hr : r.ifn.isSome || !r.pipes.isEmpty := by simp [hpipes]
      rw [saveIn_fd hr, tmpfn_fst, htmps, ← tmpfn_fst]
      exact hsaves.2 hpipes
    | some name =>
      rw [hifn] at hsaves
      have hr : r.ifn.isSome || !r.pipes.isEmpty := by simp [hifn]
      have hfd := saveIn_fd (s := e) hr
      have hin : (saveIn r e).oldinfd ≠ none := hfd ▸ hsaves.1
      obtain ⟨hheld', hout', hopen⟩ := redirectIn_held hready hheld hin
      have hinfd : (redirectIn (saveIn r e)).2.oldinfd ≠ none := by
        intro hno
        exact hin (hno ▸ (redirectIn_frame (saveIn r e) (hheld.length ▸ hready.length)).oldinfd.symm)
      have hsaves := hsaves.2
      generalize redirectIn (saveIn r e) = p at hheld' hout' hopen hinfd hsaves
      obtain ⟨ok, s₁⟩ := p
      cases ok with
      | false => exact abort_final hready hheld' _ _
      | true =>
        exact runCommands_final hcmd hready hheld' (hopen rfl) (hout'.trans hout) (hsaves rfl)
          fun _ => Or.inl hinfd

/-! ## What has not been saved is lost -/

/-- Stdin or stdout is not `f`, a file that has been opened before, and nothing has been saved for
it. -/
structure Lost (i f : ℕ) (s : Session) : Prop where
  file : s.file i ≠ some f
  next : f < s.next
  old : i = 0 ∧ s.oldinfd = none ∨ i = 1 ∧ s.oldoutfd = none

variable {i f : ℕ} {s : Session}

theorem Lost.setFile (h : Lost i f s) {k : ℕ} {g : Option ℕ} (hg : k = i → g ≠ some f) :
    Lost i f (s.setFile k g) := by
  refine ⟨?_, h.next, h.old⟩
  rw [Session.file_setFile]
  split
  · rename_i hand
    exact hg hand.1.symm
  · exact h.file

theorem Lost.close (h : Lost i f s) (k : ℕ) : Lost i f (s.close k) :=
  h.setFile fun _ => (Option.some_ne_none f).symm

/-- A new file is another one. -/
theorem Lost.newFile (h : Lost i f s) (ok : Bool) : Lost i f (s.newFile ok).2 := by
  rw [Session.newFile]
  cases s.lowest with
  | none => exact h
  | some n =>
    cases ok with
    | false => exact h
    | true =>
      have hset := h.setFile (k := n) (g := some s.next) fun _ heq =>
        absurd (Option.some.inj heq) (Nat.ne_of_gt h.next)
      exact ⟨hset.file, Nat.lt_succ_of_lt h.next, h.old⟩

theorem Lost.openFile (h : Lost i f s) : Lost i f s.openFile.2 :=
  Lost.newFile (s := { s with opens := (ask true s.opens).2 }) ⟨h.file, h.next, h.old⟩ _

theorem Lost.creat (h : Lost i f s) : Lost i f s.creat.2 :=
  Lost.newFile (s := { s with creats := (ask true s.creats).2 }) ⟨h.file, h.next, h.old⟩ _

theorem Lost.devopenOut (h : Lost i f s) (append : Bool) : Lost i f (s.devopenOut append).2 := by
  rw [Session.devopenOut]
  split
  · have hopen := h.openFile
    generalize s.openFile = p at hopen
    obtain ⟨fd, s₁⟩ := p
    cases fd with
    | none => exact hopen.creat
    | some fd => exact hopen
  · exact h.creat

theorem Lost.killtmpfn (h : Lost i f s) (fn : Option Str) : Lost i f (s.killtmpfn fn) := by
  cases fn <;> exact ⟨h.file, h.next, h.old⟩

theorem Lost.tmpfn (h : Lost i f s) : Lost i f s.tmpfn.2 := by
  rw [Session.tmpfn]
  split <;> exact ⟨h.file, h.next, h.old⟩

theorem Lost.dup2 (h : Lost i f s) {fd : Option ℕ} {newfd : ℕ} (hfd : fd = none ∨ newfd ≠ i) :
    Lost i f (s.dup2 fd newfd) := by
  rw [Session.dup2]
  split
  · exact h
  · rename_i hsome
    refine h.setFile fun heq => absurd heq (hfd.resolve_left fun hnone => ?_)
    rw [hnone] at hsome
    cases hsome

theorem Lost.run (hcmd : Tame docommand) (h : Lost i f s) (cmd : Str) : Lost i f (docommand cmd s) where
  file := hcmd.file cmd s i ▸ h.file
  next := Nat.lt_of_lt_of_le h.next (hcmd.next cmd s)
  old := by
    rw [hcmd.oldinfd, hcmd.oldoutfd]
    exact h.old

theorem Lost.restoreIn (h : Lost i f s) : Lost i f (restoreIn s) := by
  rw [Shell.restoreIn]
  cases hin : s.oldinfd with
  | none => exact h
  | some a =>
    obtain ⟨rfl, hout⟩ := h.old.resolve_left fun hand =>
      absurd (hin.symm.trans hand.2) (Option.some_ne_none a)
    have hcopied := (@Lost.dup2 _ _ _ (h.close 0) (some a) 0 (Or.inr Nat.zero_ne_one)).close a
    exact ⟨hcopied.file, hcopied.next, Or.inr ⟨rfl, (copied_frame s (some a) Nat.two_pos a).2.2.trans hout⟩⟩

theorem Lost.restoreOut (h : Lost i f s) : Lost i f (restoreOut s) := by
  rw [Shell.restoreOut]
  cases hout : s.oldoutfd with
  | none => exact h
  | some b =>
    obtain ⟨rfl, hin⟩ := h.old.resolve_right fun hand =>
      absurd (hout.symm.trans hand.2) (Option.some_ne_none b)
    have hcopied := (@Lost.dup2 _ _ _ (h.close 1) (some b) 1 (Or.inr Nat.one_ne_zero)).close b
    exact ⟨hcopied.file, hcopied.next, Or.inl ⟨rfl, (copied_frame s (some b) Nat.one_lt_two b).2.1.trans hin⟩⟩

theorem Lost.abort (h : Lost i f s) (fname0 fname1 : Option Str) : Lost i f (abort fname0 fname1 s) :=
  ((h.restoreIn.restoreOut).killtmpfn fname1).killtmpfn fname0

theorem Lost.pipe (hcmd : Tame docommand) (h : Lost i f s) (fname1 : Option Str) (cmd : Str) :
    Lost i f (pipe docommand fname1 cmd s) := by
  rw [Shell.pipe]
  have hrun := h.creat.run hcmd cmd
  generalize docommand cmd s.creat.2 = s₁ at hrun
  have hdup : s₁.oldoutfd = none ∨ 1 ≠ i := hrun.old.elim
    (fun hand => Or.inr (hand.1 ▸ Nat.one_ne_zero)) fun hand => Or.inl hand.2
  exact ((((hrun.close 1).dup2 hdup).close 0).killtmpfn fname1).openFile

theorem Lost.pipes (hcmd : Tame docommand) : ∀ (cmds : List Str) (fname1 : Option Str)
    {s : Session}, Lost i f s → Lost i f (pipes docommand cmds fname1 s).2.2
  | [], _, s, h => h
  | cmd :: cmds, fname1, s, h => by
    have hclose := (h.close 1).tmpfn
    rw [Shell.pipes]
    generalize (s.close 1).tmpfn = p at hclose
    obtain ⟨fname0, s₁⟩ := p
    cases fname0 with
    | none => exact hclose
    | some fname0 => exact Lost.pipes hcmd cmds (some fname0) (Lost.pipe hcmd hclose fname1 cmd)

theorem Lost.lastCommand (hcmd : Tame docommand) (h : Lost i f s) (r : Redirection)
    (fname1 : Option Str) : Lost i f (lastCommand docommand r fname1 s) := by
  rw [Shell.lastCommand]
  cases r.ofn with
  | none => exact (h.restoreOut.run hcmd r.cmd).abort _ _
  | some name =>
    have hopen := (h.close 1).devopenOut r.append
    dsimp only
    split
    · exact (hopen.run hcmd r.cmd).abort _ _
    · exact hopen.abort _ _

theorem Lost.runCommands (hcmd : Tame docommand) (h : Lost i f s) (r : Redirection) :
    Lost i f (runCommands docommand r s) := by
  rw [Shell.runCommands]
  have hpipes := h.pipes hcmd r.pipes none
  generalize Shell.pipes docommand r.pipes none s = p at hpipes
  obtain ⟨ok, fname1, s₁⟩ := p
  cases ok with
  | false => exact hpipes.abort _ _
  | true => exact hpipes.lastCommand hcmd r fname1

theorem close_close (s : Session) (k : ℕ) : (s.close k).close k = s.close k := by
  simp [Session.close, Session.setFile]

/-- If stdout is redirected, it is closed first. -/
theorem runCommands_close {r : Redirection} (hr : r.ofn.isSome || !r.pipes.isEmpty) (s : Session) :
    runCommands docommand r (s.close 1) = runCommands docommand r s := by
  rw [runCommands, runCommands]
  cases hpipes : r.pipes with
  | cons cmd cmds => rw [pipes, pipes, close_close]
  | nil =>
    rw [hpipes, List.isEmpty_nil, Bool.not_true, Bool.or_false] at hr
    obtain ⟨name, hofn⟩ := Option.isSome_iff_exists.mp hr
    rw [pipes, pipes]
    dsimp only
    rw [lastCommand, lastCommand, hofn]
    dsimp only
    rw [close_close]

/-- **Stdout is lost** if it has not been saved. -/
theorem stdout_lost (hcmd : Tame docommand) {e s : Session} {f : ℕ} (hready : Ready e) (h : Held e s)
    (h0 : s.file 0 ≠ none) (hidle : s.oldoutfd = none) (hnext : f < s.next) {r : Redirection}
    (hr : r.ofn.isSome || !r.pipes.isEmpty) (hdup : (s.dup 1).1 = none) :
    (runCommands docommand r (saveOut r s)).file 1 ≠ some f := by
  obtain ⟨hheld, -, -, hnext'⟩ := saveOut_held hready h h0 hidle r
  have hlen : 2 ≤ (saveOut r s).handles.length := hheld.length ▸ hready.length
  have hlost : Lost 1 f ((saveOut r s).close 1) := by
    refine ⟨?_, hnext'.symm ▸ hnext, Or.inr ⟨rfl, (saveOut_fd hr).trans hdup⟩⟩
    have hclosed : ((saveOut r s).close 1).file 1 = none := Session.file_setFile_self _ none (by omega)
    rw [hclosed]
    exact (Option.some_ne_none f).symm
  rw [← runCommands_close hr]
  exact (hlost.runCommands hcmd r).file

theorem newFile_next (s : Session) (ok : Bool) : s.next ≤ (s.newFile ok).2.next := by
  rw [Session.newFile]
  cases s.lowest with
  | none => exact Nat.le_refl _
  | some n =>
    cases ok with
    | false => exact Nat.le_refl _
    | true => exact Nat.le_succ _

/-- A pipe closes stdin. -/
theorem pipe_lost (hcmd : Tame docommand) {f : ℕ} {s : Session} (hlen : 2 ≤ s.handles.length)
    (hone : s.file 1 = none) (hin : s.oldinfd = none) (hnext : f < s.next) (fname1 : Option Str)
    (cmd : Str) : Lost 0 f (pipe docommand fname1 cmd s) := by
  have hframe := (Frame.creat Nat.one_lt_two hone).trans (hcmd.frame cmd s.creat.2)
  have hmore : s.next ≤ (docommand cmd s.creat.2).next := Nat.le_trans
    (newFile_next { s with creats := (ask true s.creats).2 } _) (hcmd.next cmd s.creat.2)
  rw [pipe]
  generalize docommand cmd s.creat.2 = s₁ at hframe hmore
  have hout := (hframe.trans (.setFile s₁ Nat.one_lt_two none)).trans
    (.dup2 (s₁.close 1) s₁.oldoutfd Nat.one_lt_two)
  have hnext₂ : ((s₁.close 1).dup2 s₁.oldoutfd 1).next = s₁.next := by
    rw [Session.dup2]
    split <;> rfl
  generalize (s₁.close 1).dup2 s₁.oldoutfd 1 = s₂ at hout hnext₂
  have hlost : Lost 0 f (s₂.close 0) := by
    refine ⟨?_, ?_, Or.inl ⟨rfl, hout.oldinfd.trans hin⟩⟩
    · have hclosed : (s₂.close 0).file 0 = none :=
        Session.file_setFile_self _ none (by rw [hout.length]; omega)
      rw [hclosed]
      exact (Option.some_ne_none f).symm
    · exact Nat.lt_of_lt_of_le hnext (hnext₂.symm ▸ hmore)
  exact (hlost.killtmpfn fname1).openFile

/-- **Stdin is lost in a pipe** if it has not been saved. -/
theorem stdin_lost_pipe (hcmd : Tame docommand) {f : ℕ} {s : Session} (hlen : 2 ≤ s.handles.length)
    (hin : s.oldinfd = none) (hnext : f < s.next) (htmp : s.tmpfn.1 ≠ none) {r : Redirection}
    (hpipes : r.pipes ≠ []) : (runCommands docommand r s).file 0 ≠ some f := by
  obtain ⟨cmd, cmds, hcons⟩ := List.exists_cons_of_ne_nil hpipes
  have htmp' : (s.close 1).tmpfn.1 ≠ none := by
    rw [tmpfn_fst] at htmp ⊢
    exact htmp
  have hone := close_tmpfn_file s hlen
  have hframe : Frame s (s.close 1).tmpfn.2 :=
    (Frame.setFile s Nat.one_lt_two none).trans (.tmpfn (s.close 1))
  have hnext' : (s.close 1).tmpfn.2.next = s.next := by
    rw [Session.tmpfn]
    split <;> rfl
  rw [runCommands, hcons, pipes]
  generalize (s.close 1).tmpfn = p at htmp' hone hframe hnext'
  obtain ⟨fname0, s₁⟩ := p
  obtain ⟨name, rfl⟩ := Option.ne_none_iff_exists'.mp htmp'
  have hlost := (pipe_lost (f := f) hcmd (hframe.length ▸ hlen) hone (hframe.oldinfd.trans hin)
    (hnext'.symm ▸ hnext) none cmd).pipes hcmd cmds (some name)
  dsimp only
  generalize pipes docommand cmds (some name) (pipe docommand none cmd s₁) = p at hlost
  obtain ⟨ok, fname1, s₂⟩ := p
  cases ok with
  | false => exact (hlost.abort _ _).file
  | true => exact (hlost.lastCommand hcmd r fname1).file

theorem Lost.saveOut {f : ℕ} {s : Session} (h : Lost 0 f s) (h0 : s.file 0 ≠ none) (r : Redirection) :
    Lost 0 f (saveOut r s) := by
  have hin : s.oldinfd = none := (h.old.resolve_right fun hand => absurd hand.1 Nat.zero_ne_one).2
  rw [Shell.saveOut]
  split
  · rcases dup_cases 1 s with ⟨hfd, hs⟩ | ⟨n, g, hfd, -, hn, hs⟩
    · rw [hfd, hs]
      exact ⟨h.file, h.next, Or.inl ⟨rfl, hin⟩⟩
    · rw [hfd, hs]
      have hn0 : (0 : ℕ) ≠ n := fun heq => h0 (heq ▸ (Session.lowest_some hn).2.1)
      refine ⟨?_, h.next, Or.inl ⟨rfl, hin⟩⟩
      have hfile : (s.setFile n (some g)).file 0 = s.file 0 := s.file_setFile_of_ne _ hn0
      exact fun heq => h.file (hfile.symm.trans heq)
  · exact h

/-- **Stdin is lost to a file** if it has not been saved. -/
theorem stdin_lost_file (hcmd : Tame docommand) {f : ℕ} {s : Session} (hlen : 2 ≤ s.handles.length)
    (hin : s.oldinfd = none) (hnext : f < s.next) (r : Redirection) :
    Lost 0 f (abort none none (redirectIn s).2) ∧
      ((redirectIn s).1 = true → Lost 0 f (runCommands docommand r (saveOut r (redirectIn s).2))) := by
  have hclosed : (s.close 0).file 0 = none := s.file_setFile_self none (by omega)
  have hclose : Lost 0 f (s.close 0) :=
    ⟨by rw [hclosed]; exact (Option.some_ne_none f).symm, hnext, Or.inl ⟨rfl, hin⟩⟩
  have hlost : Lost 0 f (redirectIn s).2 := hclose.openFile
  refine ⟨hlost.abort _ _, fun hopen => (hlost.saveOut ?_ r).runCommands hcmd r⟩
  have hfd : (s.close 0).openFile.1 = some 0 := beq_iff_eq.mp hopen
  have hfile := newFile_some (s := { s.close 0 with opens := (ask true s.opens).2 }) hfd
  exact fun hno => absurd (hfile.symm.trans hno) (Option.some_ne_none _)

/-! ## Temporary files -/

theorem dup2_temps (s : Session) (fd : Option ℕ) (newfd : ℕ) : (s.dup2 fd newfd).temps = s.temps := by
  rw [Session.dup2]
  split <;> rfl

theorem newFile_temps (s : Session) (ok : Bool) : (s.newFile ok).2.temps = s.temps := by
  rw [Session.newFile]
  cases s.lowest with
  | none => rfl
  | some n => cases ok <;> rfl

theorem openFile_temps (s : Session) : s.openFile.2.temps = s.temps := newFile_temps _ _

theorem creat_temps (s : Session) : s.creat.2.temps = s.temps := newFile_temps _ _

theorem devopenOut_temps (s : Session) (append : Bool) : (s.devopenOut append).2.temps = s.temps := by
  have hopen := openFile_temps s
  rw [Session.devopenOut]
  split
  · generalize s.openFile = p at hopen
    obtain ⟨fd, s₁⟩ := p
    cases fd with
    | none => exact (creat_temps s₁).trans hopen
    | some fd => exact hopen
  · exact creat_temps s

theorem dup_temps (h : ℕ) (s : Session) : (s.dup h).2.temps = s.temps := by
  rcases dup_cases h s with ⟨-, hs⟩ | ⟨n, f, -, -, -, hs⟩
  · rw [hs]
  · rw [hs]; rfl

theorem saveIn_temps (r : Redirection) (s : Session) : (saveIn r s).temps = s.temps := by
  rw [saveIn]
  split
  · exact dup_temps 0 s
  · rfl

theorem saveOut_temps (r : Redirection) (s : Session) : (saveOut r s).temps = s.temps := by
  rw [saveOut]
  split
  · exact dup_temps 1 s
  · rfl

theorem restoreIn_temps (s : Session) : (restoreIn s).temps = s.temps := by
  rw [restoreIn]
  split
  · rfl
  · exact dup2_temps _ _ _

theorem restoreOut_temps (s : Session) : (restoreOut s).temps = s.temps := by
  rw [restoreOut]
  split
  · rfl
  · exact dup2_temps _ _ _

/-- No temporary file has been left but the one that is to be read. -/
def Kept (e : Session) (fname1 : Option Str) (s : Session) : Prop :=
  ∀ name ∈ s.temps, name ∈ e.temps ∨ fname1 = some name

theorem Kept.congr {e s s' : Session} {fname1 : Option Str} (h : Kept e fname1 s)
    (heq : s'.temps = s.temps) : Kept e fname1 s' := fun name hname => h name (heq ▸ hname)

/-- What `parsecommandline` should leave: nothing saved, and no temporary file. -/
structure Cleared (e s : Session) : Prop where
  idle : Idle s
  temps : ∀ name ∈ s.temps, name ∈ e.temps

theorem restoreIn_oldinfd (s : Session) : (restoreIn s).oldinfd = none := by
  rw [restoreIn]
  split
  · assumption
  · rfl

theorem restoreOut_oldfds (s : Session) :
    (restoreOut s).oldinfd = s.oldinfd ∧ (restoreOut s).oldoutfd = none := by
  rw [restoreOut]
  split
  · exact ⟨rfl, by assumption⟩
  · rename_i fd _
    exact ⟨(copied_frame s (some fd) Nat.one_lt_two fd).2.1, rfl⟩

theorem abort_cleared {e s : Session} {fname1 : Option Str} (h : Kept e fname1 s) :
    Cleared e (abort none fname1 s) := by
  have hframe := Frame.killtmpfn (restoreOut (restoreIn s)) fname1
  obtain ⟨hin, hout⟩ := restoreOut_oldfds (restoreIn s)
  refine ⟨⟨hframe.oldinfd.trans (hin.trans (restoreIn_oldinfd s)), hframe.oldoutfd.trans hout⟩, ?_⟩
  have hkept : Kept e fname1 (restoreOut (restoreIn s)) :=
    h.congr ((restoreOut_temps _).trans (restoreIn_temps s))
  intro name hname
  change name ∈ ((restoreOut (restoreIn s)).killtmpfn fname1).temps at hname
  cases fname1 with
  | none => exact (hkept name hname).resolve_right (Option.some_ne_none name).symm
  | some fname1 =>
    obtain ⟨hmem, hne⟩ := List.mem_filter.mp hname
    exact (hkept name hmem).resolve_right fun heq => by
      rw [Option.some.inj heq] at hne
      simp at hne

/-- A pipe removes the temporary file that has been read. -/
theorem pipe_kept (hcmd : Tame docommand) {e s : Session} {fname0 : Str} {fname1 : Option Str}
    (h : ∀ name ∈ s.temps, name = fname0 ∨ name ∈ e.temps ∨ fname1 = some name) (cmd : Str) :
    Kept e (some fname0) (pipe docommand fname1 cmd s) := by
  have hrun : (docommand cmd s.creat.2).temps = s.temps :=
    (hcmd.temps cmd s.creat.2).trans (creat_temps s)
  rw [pipe]
  generalize docommand cmd s.creat.2 = s₁ at hrun
  have hclose : (((s₁.close 1).dup2 s₁.oldoutfd 1).close 0).temps = s.temps :=
    (dup2_temps (s₁.close 1) s₁.oldoutfd 1).trans hrun
  generalize ((s₁.close 1).dup2 s₁.oldoutfd 1).close 0 = s₂ at hclose
  refine Kept.congr (fun name hname => ?_) (openFile_temps (s₂.killtmpfn fname1))
  have hcases : name ∈ s₂.temps ∧ fname1 ≠ some name := by
    cases fname1 with
    | none => exact ⟨hname, (Option.some_ne_none name).symm⟩
    | some fname1 =>
      obtain ⟨hmem, hne⟩ := List.mem_filter.mp hname
      exact ⟨hmem, fun heq => by rw [Option.some.inj heq] at hne; simp at hne⟩
  rcases h name (hclose ▸ hcases.1) with rfl | hold | hfname
  · exact Or.inr rfl
  · exact Or.inl hold
  · exact absurd hfname hcases.2

theorem pipes_kept (hcmd : Tame docommand) {e : Session} : ∀ (cmds : List Str)
    {fname1 : Option Str} {s : Session}, Kept e fname1 s →
    Kept e (pipes docommand cmds fname1 s).2.1 (pipes docommand cmds fname1 s).2.2
  | [], _, _, h => h
  | cmd :: cmds, fname1, s, h => by
    have htmp : (s.close 1).tmpfn.2.temps = (s.close 1).tmpfn.1.toList ++ s.temps := by
      rw [Session.tmpfn]
      split <;> rfl
    rw [pipes]
    generalize (s.close 1).tmpfn = p at htmp
    obtain ⟨fname0, s₁⟩ := p
    cases fname0 with
    | none => exact h.congr htmp
    | some fname0 =>
      refine pipes_kept hcmd cmds (pipe_kept hcmd (fun name hname => ?_) cmd)
      rw [show s₁.temps = fname0 :: s.temps from htmp] at hname
      exact (List.mem_cons.mp hname).imp_right (h name)

theorem lastCommand_cleared (hcmd : Tame docommand) {e s : Session} {fname1 : Option Str}
    (h : Kept e fname1 s) (r : Redirection) : Cleared e (lastCommand docommand r fname1 s) := by
  rw [lastCommand]
  cases r.ofn with
  | none => exact abort_cleared (h.congr ((hcmd.temps _ _).trans (restoreOut_temps s)))
  | some name =>
    have hopen : ((s.close 1).devopenOut r.append).2.temps = s.temps := devopenOut_temps _ _
    dsimp only
    split
    · exact abort_cleared (h.congr ((hcmd.temps _ _).trans hopen))
    · exact abort_cleared (h.congr hopen)

theorem runCommands_cleared (hcmd : Tame docommand) {e s : Session} (h : s.temps = e.temps)
    (r : Redirection) : Cleared e (runCommands docommand r s) := by
  have hkept : Kept e none s := fun name hname => Or.inl (h ▸ hname)
  have hpipes := pipes_kept hcmd r.pipes hkept
  rw [runCommands]
  generalize pipes docommand r.pipes none s = p at hpipes
  obtain ⟨ok, fname1, s₁⟩ := p
  cases ok with
  | false => exact abort_cleared hpipes
  | true => exact lastCommand_cleared hcmd hpipes r

/-- **Nothing is left behind** by a command line, whatever fails. -/
theorem parsecommandline_cleared (hcmd : Tame docommand) {e : Session} (hidle : Idle e)
    (answer : Bool) (line : Str) (strdups : List Bool) :
    Cleared e (parsecommandline docommand answer line strdups e) := by
  rw [parsecommandline]
  cases answer with
  | false => exact ⟨hidle, fun _ hname => hname⟩
  | true =>
    rw [if_neg (by decide)]
    cases getRedirection line strdups with
    | none => exact abort_cleared fun name hname => Or.inl hname
    | some r =>
      dsimp only
      cases r.ifn with
      | none => exact runCommands_cleared hcmd ((saveOut_temps _ _).trans (saveIn_temps r e)) r
      | some name =>
        have hin : (redirectIn (saveIn r e)).2.temps = e.temps :=
          (openFile_temps _).trans (saveIn_temps r e)
        dsimp only
        generalize redirectIn (saveIn r e) = p at hin
        obtain ⟨ok, s₁⟩ := p
        cases ok with
        | false => exact abort_cleared fun name hname => Or.inl (hin ▸ hname)
        | true => exact runCommands_cleared hcmd ((saveOut_temps _ _).trans hin) r

/-! ## Undone exactly -/

/-- **Redirection is undone.** -/
structure Undone (e s : Session) : Prop where
  stdin : s.file 0 = e.file 0
  stdout : s.file 1 = e.file 1
  /-- No handle that was closed is open. -/
  closed : ∀ h, e.file h = none → s.file h = none
  cleared : Cleared e s

/-- The open files of stdin and stdout have been opened before. -/
structure Fresh (e : Session) : Prop where
  stdin : ∀ f, e.file 0 = some f → f < e.next
  stdout : ∀ f, e.file 1 = some f → f < e.next

/-- What is closed without having been saved is not restored. -/
theorem parsecommandline_lost (hcmd : Tame docommand) {e : Session} (hready : Ready e)
    (hidle : Idle e) (hfresh : Fresh e) (line : Str) (strdups : List Bool) {r : Redirection}
    (hline : getRedirection line strdups = some r) (hsaves : ¬ Saves r e) :
    (parsecommandline docommand true line strdups e).file 0 ≠ e.file 0 ∨
      (parsecommandline docommand true line strdups e).file 1 ≠ e.file 1 := by
  obtain ⟨f₀, hf₀⟩ := Option.ne_none_iff_exists'.mp hready.stdin
  obtain ⟨f₁, hf₁⟩ := Option.ne_none_iff_exists'.mp hready.stdout
  obtain ⟨hheld, hout, hzero, hnext, htmps⟩ := saveIn_held hready hidle r
  have hlen : 2 ≤ (saveIn r e).handles.length := hheld.length ▸ hready.length
  have h0 : (saveIn r e).file 0 ≠ none := hzero ▸ hready.stdin
  rw [hf₀, hf₁, parsecommandline, if_neg (by decide), hline]
  dsimp only
  rw [Saves] at hsaves
  cases hifn : r.ifn with
  | none =>
    rw [hifn] at hsaves
    rcases not_and_or.mp hsaves with hdup | hdup
    · obtain ⟨hr, hdup⟩ := Classical.not_imp.mp hdup
      exact Or.inr (stdout_lost hcmd hready hheld h0 hout (hnext.symm ▸ hfresh.stdout f₁ hf₁) hr
        (not_not.mp hdup))
    · obtain ⟨hpipes, hnot⟩ := Classical.not_imp.mp hdup
      obtain ⟨hdup, htmp⟩ := not_or.mp hnot
      obtain ⟨hheld', hinfd, -, hnext'⟩ := saveOut_held hready hheld h0 hout r
      have hr : r.ifn.isSome || !r.pipes.isEmpty := by simp [hpipes]
      refine Or.inl (stdin_lost_pipe hcmd (hheld'.length ▸ hready.length)
        (hinfd.trans ((saveIn_fd hr).trans (not_not.mp hdup)))
        (hnext'.symm ▸ hnext.symm ▸ hfresh.stdin f₀ hf₀) ?_ hpipes)
      rw [tmpfn_fst, saveOut_tmps, htmps, ← tmpfn_fst]
      exact htmp
  | some name =>
    rw [hifn] at hsaves
    have hr : r.ifn.isSome || !r.pipes.isEmpty := by simp [hifn]
    by_cases hdup : (e.dup 0).1 = none
    · have hlost := stdin_lost_file hcmd hlen ((saveIn_fd hr).trans hdup)
        (hnext.symm ▸ hfresh.stdin f₀ hf₀) r
      generalize redirectIn (saveIn r e) = p at hlost
      obtain ⟨ok, s₁⟩ := p
      cases ok with
      | false => exact Or.inl hlost.1.file
      | true => exact Or.inl (hlost.2 rfl).file
    · obtain ⟨hopen, hnot⟩ := Classical.not_imp.mp ((not_and.mp hsaves) hdup)
      obtain ⟨hr', hdup'⟩ := Classical.not_imp.mp hnot
      have hin : (saveIn r e).oldinfd ≠ none := saveIn_fd (s := e) hr ▸ hdup
      obtain ⟨hheld', hout', hzero'⟩ := redirectIn_held hready hheld hin
      have hmore : (saveIn r e).next ≤ (redirectIn (saveIn r e)).2.next :=
        newFile_next { (saveIn r e).close 0 with opens := _ } _
      have hlost := stdout_lost (f := f₁) hcmd hready hheld' (hzero' hopen) (hout'.trans hout)
        (Nat.lt_of_lt_of_le (hnext.symm ▸ hfresh.stdout f₁ hf₁) hmore) hr' (not_not.mp hdup')
      generalize redirectIn (saveIn r e) = p at hopen hlost
      obtain ⟨ok, s₁⟩ := p
      obtain rfl : ok = true := hopen
      exact Or.inr hlost

/-- **Redirection is undone exactly if what is closed has been saved.** -/
theorem parsecommandline_undone (docommand : Str → Session → Session) (hcmd : Tame docommand)
    (e : Session) (hready : Ready e) (hidle : Idle e) (hfresh : Fresh e) (answer : Bool) (line : Str)
    (strdups : List Bool) :
    Undone e (parsecommandline docommand answer line strdups e) ↔
      (answer = true → ∀ r, getRedirection line strdups = some r → Saves r e) := by
  have hcleared := parsecommandline_cleared hcmd hidle answer line strdups
  cases answer with
  | false =>
    refine ⟨fun _ h => absurd h Bool.false_ne_true, fun _ => ⟨rfl, rfl, fun _ h => h, hcleared⟩⟩
  | true =>
    constructor
    · intro hundone _ r hline
      by_contra hsaves
      rcases parsecommandline_lost hcmd hready hidle hfresh line strdups hline hsaves with hlost | hlost
      · exact hlost hundone.stdin
      · exact hlost hundone.stdout
    · intro hsaves
      have hfile := (parsecommandline_final hcmd hready hidle line strdups (hsaves rfl)).file
      exact ⟨hfile 0, hfile 1, fun h hnone => (hfile h).trans hnone, hcleared⟩

/-- The console is behind three handles, and the others are closed. -/
def usual : Session :=
  ⟨List.replicate 3 (some 0) ++ List.replicate 17 none, 1, none, none, [], [], [], [], []⟩

/-- A pipe with both ends redirected: `a<b|c>d` -/
theorem parsecommandline_undone_pipe :
    Undone usual (parsecommandline (fun _ s => s) true [97, 60, 98, 124, 99, 62, 100] [] usual) ↔
      (true = true → ∀ r, getRedirection [97, 60, 98, 124, 99, 62, 100] [] = some r → Saves r usual) :=
  parsecommandline_undone (fun _ s => s)
    ⟨fun _ _ => rfl, fun _ _ => rfl, fun _ _ => rfl, fun _ _ => rfl, fun _ _ => Nat.le_refl _⟩
    usual ⟨by decide, by decide⟩ ⟨rfl, rfl⟩
    ⟨fun f hf => by cases hf; decide, fun f hf => by cases hf; decide⟩ true _ []

/-- All handles are open. -/
def allOpen : Session := ⟨List.replicate 20 (some 0), 1, none, none, [], [], [], [], []⟩

/-- **Without a handle to save stdin in**, `a<b` leaves stdin at the file. -/
theorem stdin_not_restored :
    ¬ Undone allOpen (parsecommandline (fun _ s => s) true [97, 60, 98] [] allOpen) :=
  fun h => absurd h.stdin (by decide +kernel)

end Commands

end Shell
end BurdahDos
