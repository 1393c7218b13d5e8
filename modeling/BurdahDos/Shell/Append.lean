import BurdahDos.Shell.Copy
import Mathlib

/-!
# COPY that appends

A file that COPY appends to is its own first source.  `append_keeps`: its data are still there
afterwards exactly if all goes well once it has been opened, and it is not written from its start,
which a single binary source leads to.
-/

set_option autoImplicit false

namespace BurdahDos
namespace Shell

/-! ## What stays as it is -/

/-- The files and the flags of the destination are the same. -/
structure Untouched (s s' : CopyState) : Prop where
  files : s'.files = s.files
  destFlags : s'.destFlags = s.destFlags

theorem Untouched.refl (s : CopyState) : Untouched s s := ⟨rfl, rfl⟩

theorem Untouched.trans {s s' s'' : CopyState} (h : Untouched s s') (h' : Untouched s' s'') :
    Untouched s s'' :=
  ⟨h'.files.trans h.files, h'.destFlags.trans h.destFlags⟩

theorem poll_untouched (s : CopyState) : Untouched s s.poll.2 := by
  rw [CopyState.poll]
  dsimp only
  split <;> exact ⟨rfl, rfl⟩

theorem getBuffer_untouched : ∀ (k : ℕ) (s : CopyState), Untouched s (getBuffer k s).2
  | 0, s => .refl s
  | k + 1, s => by
    rw [getBuffer]
    dsimp only
    split
    · exact ⟨rfl, rfl⟩
    · have hbuffer := getBuffer_untouched k { s with allocs := (ask true s.allocs).2 }
      exact ⟨hbuffer.files, hbuffer.destFlags⟩

theorem bigLoop_untouched (asc deviceIn : Bool) (size : ℕ) : ∀ (cs : List (List UInt8)) (out : Out)
    (s : CopyState), Untouched s (bigLoop asc deviceIn size cs out s).2.2
  | [], _, _ => ⟨rfl, rfl⟩
  | chunk :: rest, out, s => by
    rw [bigLoop]
    dsimp only
    split
    · exact ⟨rfl, rfl⟩
    · split
      · exact ⟨rfl, rfl⟩
      · have hpoll : Untouched s (CopyState.poll
            { s with reads := (ask true s.reads).2, writes := (ask none s.writes).2 }).2 :=
          have h := poll_untouched _
          ⟨h.files, h.destFlags⟩
        split
        · exact hpoll
        · split
          · exact hpoll
          · exact hpoll.trans (bigLoop_untouched asc deviceIn size rest _ _)

theorem bigCopy_untouched (env : Env) (asc : Bool) (name : Str) (out : Out) (s : CopyState) :
    Untouched s (bigCopy env asc name out s).2.2 := by
  have hbuffer := getBuffer_untouched 15 s
  rw [bigCopy]
  generalize getBuffer 15 s = p at hbuffer
  obtain ⟨size, s₁⟩ := p
  cases size with
  | none => exact hbuffer
  | some size => exact hbuffer.trans (bigLoop_untouched _ _ _ _ _ _)

theorem fillSized_untouched (env : Env) (changed asc : Bool) (name : Str) (sized : Option Out)
    (s : CopyState) : Untouched s (fillSized env changed asc name sized s).2 := by
  cases sized with
  | none => exact .refl s
  | some out => exact bigCopy_untouched env asc name out s

theorem copyBytes_untouched (env : Env) (single : Bool) (name : Str) (flags : Mode) (out : Out)
    (s : CopyState) : Untouched s (copyBytes env single name flags out s).2 := by
  rw [copyBytes]
  dsimp only
  split
  · have hfill := fillSized_untouched env (sizeChanged env single name flags out) flags.ascii name
      (presize ((s.files name).getD []).length out s).1
      (presize ((s.files name).getD []).length out s).2
    exact ⟨hfill.files, hfill.destFlags⟩
  · have hfill := fillSized_untouched env (sizeChanged env single name flags out) flags.ascii name
      (some out) s
    exact ⟨hfill.files, hfill.destFlags⟩

/-! ## The destination -/

theorem truncate_device (out : Out) : out.truncate.device = out.device := by
  rw [Out.truncate]
  split <;> rfl

theorem write_device (out : Out) (bytes : List UInt8) : (out.write bytes).device = out.device := by
  rw [Out.write]
  split
  · rfl
  · split
    · exact truncate_device out
    · rfl

theorem bigLoop_device (asc deviceIn : Bool) (size : ℕ) : ∀ (cs : List (List UInt8)) (out : Out)
    (s : CopyState), (bigLoop asc deviceIn size cs out s).2.1.device = out.device
  | [], _, _ => rfl
  | chunk :: rest, out, s => by
    have hwrite := write_device out (upToCtrlZ asc chunk)
    rw [bigLoop]
    dsimp only
    split
    · rfl
    · split
      · exact write_device out _
      · split
        · exact hwrite
        · split
          · exact hwrite
          · exact (bigLoop_device asc deviceIn size rest _ _).trans hwrite

theorem bigCopy_device (env : Env) (asc : Bool) (name : Str) (out : Out) (s : CopyState) :
    (bigCopy env asc name out s).2.1.device = out.device := by
  rw [bigCopy]
  split
  · rfl
  · exact bigLoop_device _ _ _ _ _ _

/-- What is in the file is these data and what has been added behind them. -/
structure Appended (data : List UInt8) (out : Out) : Prop where
  device : out.device = false
  content : data <+: out.content
  pos : out.pos = out.content.length

/-- What has been written from the start of the file. -/
structure Written (data : List UInt8) (out : Out) : Prop where
  device : out.device = false
  content : data <+: out.content
  pos : out.pos = data.length

theorem Appended.written {data : List UInt8} {out : Out} (h : Appended data out) :
    Written out.content out :=
  ⟨h.device, List.prefix_rfl, h.pos⟩

theorem Written.truncate {data : List UInt8} {out : Out} (h : Written data out) :
    out.truncate = { out with content := data } := by
  have hle := h.content.length_le
  rw [Out.truncate, h.device, if_neg Bool.false_ne_true, h.pos, Nat.sub_eq_zero_of_le hle,
    List.prefix_iff_eq_take.mp h.content]
  simp

theorem Written.write {data : List UInt8} {out : Out} (h : Written data out) (bytes : List UInt8) :
    Written (data ++ bytes) (out.write bytes) := by
  rw [Out.write, h.device, if_neg Bool.false_ne_true]
  split
  · next hnil =>
    rw [h.truncate, hnil, List.append_nil]
    exact ⟨h.device, List.prefix_rfl, h.pos⟩
  · rw [h.truncate]
    exact ⟨rfl, ⟨_, rfl⟩, by rw [List.length_append, h.pos]⟩

theorem Written.content_write {out : Out} (h : Written out.content out) (bytes : List UInt8) :
    (out.write bytes).content = out.content ++ bytes := by
  rw [Out.write, h.device, if_neg Bool.false_ne_true]
  split
  · next hnil => rw [h.truncate, hnil, List.append_nil]
  · rw [h.truncate, h.pos, List.drop_eq_nil_of_le (Nat.le_add_right _ _), List.append_nil]

theorem Appended.write {data : List UInt8} {out : Out} (h : Appended data out) (bytes : List UInt8) :
    Appended data (out.write bytes) := by
  have hcontent := h.written.content_write bytes
  have hwrite := h.written.write bytes
  exact ⟨hwrite.device, hcontent ▸ h.content.trans (List.prefix_append _ _),
    by rw [hwrite.pos, hcontent]⟩

/-! ## What is written -/

theorem bigLoop_appended {data : List UInt8} (asc deviceIn : Bool) (size : ℕ) :
    ∀ (cs : List (List UInt8)) {out : Out} (s : CopyState), Appended data out →
      Appended data (bigLoop asc deviceIn size cs out s).2.1
  | [], _, _, h => h
  | chunk :: rest, out, s, h => by
    rw [bigLoop]
    dsimp only
    split
    · exact h
    · split
      · exact h.write _
      · split
        · exact h.write _
        · split
          · exact h.write _
          · exact bigLoop_appended asc deviceIn size rest _ (h.write _)

/-- A short read is the last one. -/
def ShortLast (size : ℕ) : List (List UInt8) → Prop
  | [] => True
  | chunk :: rest => (chunk.length < size → rest = []) ∧ ShortLast size rest

theorem chunks_shortLast (size : ℕ) : ∀ (n : ℕ) (data : List UInt8), ShortLast size (chunks size n data)
  | 0, _ => trivial
  | _ + 1, [] => trivial
  | n + 1, b :: bs => by
    refine ⟨fun h => ?_, chunks_shortLast size n _⟩
    rw [List.length_take] at h
    rw [List.drop_eq_nil_of_le (by omega)]
    cases n <;> rfl

theorem chunks_flatten {size : ℕ} (hsize : 0 < size) : ∀ (n : ℕ) (data : List UInt8),
    data.length ≤ n → (chunks size n data).flatten = data
  | 0, data, hn => (List.length_eq_zero_iff.mp (Nat.le_zero.mp hn)).symm
  | _ + 1, [], _ => rfl
  | n + 1, b :: bs, hn => by
    have hlen : ((b :: bs).drop size).length ≤ n := by
      rw [List.length_drop]
      omega
    change (b :: bs).take size ++ (chunks size n ((b :: bs).drop size)).flatten = b :: bs
    rw [chunks_flatten hsize n _ hlen, List.take_append_drop]

/-- Binary data are written as they are. -/
theorem bigLoop_written (deviceIn : Bool) (size : ℕ) : ∀ (cs : List (List UInt8)) {old : List UInt8}
    {out : Out} (s : CopyState), ShortLast size cs → Written old out →
      (bigLoop false deviceIn size cs out s).1 = 0 →
      Written (old ++ cs.flatten) (bigLoop false deviceIn size cs out s).2.1
  | [], old, _, _, _, h, _ => by
    rw [List.flatten_nil, List.append_nil]
    exact h
  | chunk :: rest, old, out, s, hshort, h, hok => by
    have hwrite : Written (old ++ chunk) (out.write (upToCtrlZ false chunk)) := h.write chunk
    rw [bigLoop] at hok ⊢
    dsimp only at hok ⊢
    split at hok
    · cases hok
    · rw [if_neg ‹_›]
      cases hw : (ask none s.writes).1 with
      | some n =>
        rw [hw, h.device] at hok
        cases hok
      | none =>
        rw [hw] at hok
        dsimp only at hok ⊢
        split at hok
        · cases hok
        · rw [if_neg ‹_›]
          split at hok
          · next hlast =>
            have hlen : chunk.length < size := by simpa [lastChunk, upToCtrlZ] using hlast
            rw [if_pos hlast, hshort.1 hlen, List.flatten_cons, List.flatten_nil, List.append_nil]
            exact hwrite
          · rw [if_neg ‹_›, List.flatten_cons, ← List.append_assoc]
            exact bigLoop_written deviceIn size rest _ hshort.2 hwrite hok

theorem getBuffer_pos : ∀ {k : ℕ} {s : CopyState} {size : ℕ}, (getBuffer k s).1 = some size → 0 < size
  | 0, _, _, h => by cases h
  | k + 1, s, size, h => by
    rw [getBuffer] at h
    dsimp only at h
    split at h
    · cases h
      omega
    · exact getBuffer_pos h

theorem bigCopy_appended {data : List UInt8} (env : Env) (asc : Bool) (name : Str) {out : Out}
    (s : CopyState) (h : Appended data out) : Appended data (bigCopy env asc name out s).2.1 := by
  rw [bigCopy]
  split
  · exact h
  · exact bigLoop_appended _ _ _ _ _ h

theorem bigCopy_written {env : Env} {name : Str} (hname : env.isadev name = false) {out : Out}
    {s : CopyState} (h : Written [] out) (hok : (bigCopy env false name out s).1 = 0) :
    Written ((s.files name).getD []) (bigCopy env false name out s).2.1 := by
  have hfiles := (getBuffer_untouched 15 s).files
  have hpos := @getBuffer_pos 15 s
  rw [bigCopy] at hok ⊢
  generalize getBuffer 15 s = p at hok hfiles hpos
  obtain ⟨size, s₁⟩ := p
  cases size with
  | none => cases hok
  | some size =>
    have hinput : inputOf env name size s₁
        = chunks size ((s.files name).getD []).length ((s.files name).getD []) := by
      rw [inputOf, hname, if_neg Bool.false_ne_true]
      exact hfiles ▸ rfl
    have hwritten := bigLoop_written (env.isadev name) size (inputOf env name size s₁) s₁
      (hinput ▸ chunks_shortLast size _ _) h hok
    rw [hinput, chunks_flatten (hpos rfl) _ _ (Nat.le_refl _), List.nil_append] at hwritten
    rw [← hinput] at hwritten
    exact hwritten

theorem copyBytes_some {env : Env} {single : Bool} {name : Str} {flags : Mode} {out out' : Out}
    {s s' : CopyState} (hok : copyBytes env single name flags out s = (some out', s')) :
    ∃ sized s₁, Untouched s s₁ ∧
      (sizeChanged env single name flags out = false → sized = out) ∧
      (sizeChanged env single name flags out = true → sized =
        { { out with pos := ((s.files name).getD []).length }.truncate with pos := 0 }) ∧
      (bigCopy env flags.ascii name sized s₁).1 = 0 ∧
      out' = if sizeChanged env single name flags out then
          (bigCopy env flags.ascii name sized s₁).2.1.truncate
        else (bigCopy env flags.ascii name sized s₁).2.1 := by
  have hfill : ∀ {sized : Option Out} {s₁ : CopyState} {changed brk : Bool},
      (if brk then none else (fillSized env changed flags.ascii name sized s₁).1) = some out' →
      ∃ o, sized = some o ∧ (bigCopy env flags.ascii name o s₁).1 = 0 ∧
        out' = if changed then (bigCopy env flags.ascii name o s₁).2.1.truncate
          else (bigCopy env flags.ascii name o s₁).2.1 := fun {sized s₁ changed brk} h => by
    split at h
    · cases h
    · cases sized with
      | none => cases h
      | some o =>
        rw [fillSized] at h
        dsimp only at h
        split at h
        · next hrc =>
          cases h
          exact ⟨o, rfl, hrc, rfl⟩
        · cases h
  rw [copyBytes] at hok
  have hdone := congrArg Prod.fst hok
  dsimp only at hdone
  cases hchanged : sizeChanged env single name flags out with
  | false =>
    rw [hchanged, if_neg Bool.false_ne_true] at hdone
    obtain ⟨o, ho, hrc, hout⟩ := hfill hdone
    cases ho
    exact ⟨out, s, .refl s, fun _ => rfl, fun h => absurd h Bool.false_ne_true, hrc, hout⟩
  | true =>
    rw [hchanged, if_pos rfl] at hdone
    obtain ⟨o, ho, hrc, hout⟩ := hfill hdone
    refine ⟨o, (presize ((s.files name).getD []).length out s).2, ⟨rfl, rfl⟩,
      fun h => absurd h.symm Bool.false_ne_true, fun _ => ?_, hrc, hout⟩
    rw [presize] at ho
    dsimp only at ho
    split at ho
    · exact (Option.some.inj ho).symm
    · cases ho

theorem copyBytes_device {env : Env} {single : Bool} {name : Str} {flags : Mode} {out out' : Out}
    {s s' : CopyState} (hok : copyBytes env single name flags out s = (some out', s')) :
    out'.device = out.device := by
  obtain ⟨sized, s₁, -, hsame, hsized, -, rfl⟩ := copyBytes_some hok
  cases hchanged : sizeChanged env single name flags out with
  | false => rw [if_neg Bool.false_ne_true, bigCopy_device, hsame hchanged]
  | true =>
    rw [if_pos rfl, truncate_device, bigCopy_device, hsized hchanged]
    exact truncate_device _

theorem copyBytes_appended {data : List UInt8} {env : Env} {single : Bool} {name : Str} {flags : Mode}
    {out out' : Out} {s s' : CopyState} (hchanged : sizeChanged env single name flags out = false)
    (h : Appended data out) (hok : copyBytes env single name flags out s = (some out', s')) :
    Appended data out' := by
  obtain ⟨sized, s₁, -, hsized, -, -, rfl⟩ := copyBytes_some hok
  rw [hchanged, if_neg Bool.false_ne_true, hsized hchanged]
  exact bigCopy_appended env flags.ascii name s₁ h

/-- A file that is given its size first becomes the source. -/
theorem copyBytes_written {env : Env} {single : Bool} {name : Str} {flags : Mode}
    {out out' : Out} {s s' : CopyState} (hchanged : sizeChanged env single name flags out = true)
    (hok : copyBytes env single name flags out s = (some out', s')) :
    Appended ((s.files name).getD []) out' ∧ out'.content = (s.files name).getD [] := by
  have hflags := hchanged
  rw [sizeChanged, Bool.and_eq_true, Bool.and_eq_true, Bool.and_eq_true, Bool.not_eq_true',
    Bool.not_eq_true', Bool.not_eq_true'] at hflags
  obtain ⟨⟨⟨hasc, -⟩, hname⟩, hdev⟩ := hflags
  obtain ⟨sized, s₁, hsame, -, hsized, hrc, rfl⟩ := copyBytes_some hok
  have hstart : Written [] sized := by
    rw [hsized hchanged, Out.truncate, hdev, if_neg Bool.false_ne_true]
    exact ⟨rfl, List.nil_prefix, rfl⟩
  rw [hasc] at hrc
  have hwritten := bigCopy_written hname hstart hrc
  rw [hchanged, if_pos rfl, hasc, ← hsame.files, hwritten.truncate]
  exact ⟨⟨hwritten.device, List.prefix_rfl, hwritten.pos⟩, rfl⟩

/-! ## Going well -/

section

variable (K : CopyState → Prop)

/-- Nothing fails in the loop of `BIGcopy`, and `K` holds behind it. -/
def LoopWell (asc deviceIn : Bool) (size : ℕ) : List (List UInt8) → CopyState → Prop
  | [], s => (ask true s.reads).1 = true ∧ K { s with reads := (ask true s.reads).2 }
  | chunk :: rest, s =>
    (ask true s.reads).1 = true ∧ (ask none s.writes).1 = none ∧
      let p := CopyState.poll
        { s with reads := (ask true s.reads).2, writes := (ask none s.writes).2 }
      p.1 = false ∧ if lastChunk asc deviceIn size chunk then K p.2 else LoopWell asc deviceIn size rest p.2

/-- There is a buffer, and nothing fails in the loop. -/
def BytesWell (env : Env) (asc : Bool) (name : Str) (s : CopyState) : Prop :=
  match getBuffer 15 s with
  | (none, _) => False
  | (some size, s) => LoopWell K asc (env.isadev name) size (inputOf env name size s) s

/-- Nothing fails while the bytes of a source go to a file. -/
def CopyWell (env : Env) (single : Bool) (name : Str) (flags : Mode) (s : CopyState) : Prop :=
  let changed := !flags.ascii && single && !env.isadev name
  (changed → (ask true s.truncs).1 = true) ∧
    BytesWell (fun s => s.cbreak.1 = false ∧ K s.cbreak.2) env flags.ascii name
      (if changed then { s with truncs := (ask true s.truncs).2 } else s)

/-- A source can be opened, and nothing fails. -/
def SourceWell (env : Env) (srcFile : Str) (single : Bool) (h : Source) (s : CopyState) : Prop :=
  match env.fillFnam h.fnam srcFile with
  | none => False
  | some rSrc =>
    let name := env.truepath rSrc
    let p := s.openFile env name
    p.1 = true ∧ p.2.cbreak.1 = false ∧
      CopyWell K env single name (deviceFlags env name h.flags) p.2.cbreak.2

end

/-- All sources can be opened, and nothing fails. -/
def SourcesWell (K : CopyState → Prop) (env : Env) (srcFile : Str) (single : Bool) :
    List Source → CopyState → Prop
  | [], s => K s
  | h :: app, s => SourceWell (SourcesWell K env srcFile single app) env srcFile single h s

/-- The Ctrl-Z and the end of the file can be written. -/
def CloseWell (s : CopyState) : Prop :=
  (s.destFlags.ascii → (ask none s.writes).1 = none) ∧ (ask true s.closes).1 = true

section

variable (K : CopyState → Prop) [DecidablePred K]

instance decidableLoopWell (asc deviceIn : Bool) (size : ℕ) :
    ∀ cs s, Decidable (LoopWell K asc deviceIn size cs s)
  | [], s =>
    decidable_of_iff ((ask true s.reads).1 = true ∧ K { s with reads := (ask true s.reads).2 })
      (by rw [LoopWell])
  | chunk :: rest, s =>
    have := decidableLoopWell asc deviceIn size rest
    decidable_of_iff ((ask true s.reads).1 = true ∧ (ask none s.writes).1 = none ∧
      let p := CopyState.poll { s with reads := (ask true s.reads).2, writes := (ask none s.writes).2 }
      p.1 = false ∧ if lastChunk asc deviceIn size chunk then K p.2
        else LoopWell K asc deviceIn size rest p.2) (by rw [LoopWell])

instance (env : Env) (asc : Bool) (name : Str) (s : CopyState) : Decidable (BytesWell K env asc name s) :=
  match h : getBuffer 15 s with
  | (none, _) => .isFalse (by rw [BytesWell, h]; exact id)
  | (some size, s) =>
    decidable_of_iff (LoopWell K asc (env.isadev name) size (inputOf env name size s) s)
      (by rw [BytesWell, h])

instance (env : Env) (single : Bool) (name : Str) (flags : Mode) (s : CopyState) :
    Decidable (CopyWell K env single name flags s) :=
  decidable_of_iff (let changed := !flags.ascii && single && !env.isadev name
    (changed → (ask true s.truncs).1 = true) ∧
      BytesWell (fun s => s.cbreak.1 = false ∧ K s.cbreak.2) env flags.ascii name
        (if changed then { s with truncs := (ask true s.truncs).2 } else s)) (by rw [CopyWell])

instance (env : Env) (srcFile : Str) (single : Bool) (h : Source) (s : CopyState) :
    Decidable (SourceWell K env srcFile single h s) :=
  match hfill : env.fillFnam h.fnam srcFile with
  | none => .isFalse (by rw [SourceWell, hfill]; exact id)
  | some rSrc =>
    decidable_of_iff (let name := env.truepath rSrc
      let p := s.openFile env name
      p.1 = true ∧ p.2.cbreak.1 = false ∧
        CopyWell K env single name (deviceFlags env name h.flags) p.2.cbreak.2)
      (by rw [SourceWell, hfill])

instance decidableSourcesWell (env : Env) (srcFile : Str) (single : Bool) :
    ∀ src, DecidablePred (SourcesWell K env srcFile single src)
  | [] => inferInstanceAs (DecidablePred K)
  | h :: app => fun s =>
    have := decidableSourcesWell env srcFile single app
    inferInstanceAs (Decidable (SourceWell (SourcesWell K env srcFile single app) env srcFile single h s))

end

instance : DecidablePred CloseWell := fun s =>
  inferInstanceAs (Decidable ((s.destFlags.ascii → (ask none s.writes).1 = none) ∧
    (ask true s.closes).1 = true))

theorem bigLoop_well (K : CopyState → Prop) (asc deviceIn : Bool) (size : ℕ) :
    ∀ (cs : List (List UInt8)) {out : Out} (s : CopyState), out.device = false →
      ((bigLoop asc deviceIn size cs out s).1 = 0 ∧ K (bigLoop asc deviceIn size cs out s).2.2 ↔
        LoopWell K asc deviceIn size cs s)
  | [], out, s, hdev => by
    rw [bigLoop, LoopWell]
    dsimp only
    cases (ask true s.reads).1 with
    | false => simp
    | true => simp
  | chunk :: rest, out, s, hdev => by
    rw [bigLoop, LoopWell]
    dsimp only
    cases (ask true s.reads).1 with
    | false => simp
    | true =>
      cases (ask none s.writes).1 with
      | some n => simp [hdev]
      | none =>
        generalize CopyState.poll _ = p
        obtain ⟨brk, s₁⟩ := p
        cases brk with
        | true => simp
        | false =>
          cases lastChunk asc deviceIn size chunk with
          | true => simp
          | false =>
            simpa using bigLoop_well K asc deviceIn size rest s₁ ((write_device _ _).trans hdev)

theorem bigCopy_well (K : CopyState → Prop) (env : Env) (asc : Bool) (name : Str) {out : Out}
    (s : CopyState) (hdev : out.device = false) :
    (bigCopy env asc name out s).1 = 0 ∧ K (bigCopy env asc name out s).2.2 ↔
      BytesWell K env asc name s := by
  rw [bigCopy, BytesWell]
  generalize getBuffer 15 s = p
  obtain ⟨size, s₁⟩ := p
  cases size with
  | none => simp
  | some size => exact bigLoop_well K asc _ size _ s₁ hdev

theorem fillSized_well (K : CopyState → Prop) (env : Env) (changed asc : Bool) (name : Str) {out : Out}
    (s : CopyState) (hdev : out.device = false) :
    (fillSized env changed asc name (some out) s).1.isSome ∧
        K (fillSized env changed asc name (some out) s).2 ↔ BytesWell K env asc name s := by
  rw [← bigCopy_well K env asc name s hdev, fillSized]
  dsimp only
  split
  · next hrc => simp [hrc]
  · next hrc => simp [hrc]

theorem copyBytes_well (K : CopyState → Prop) (env : Env) (single : Bool) (name : Str) (flags : Mode)
    {out : Out} (s : CopyState) (hdev : out.device = false) :
    (copyBytes env single name flags out s).1.isSome ∧ K (copyBytes env single name flags out s).2 ↔
      CopyWell K env single name flags s := by
  have hsized : sizeChanged env single name flags out
      = (!flags.ascii && single && !env.isadev name) := by
    rw [sizeChanged, hdev, Bool.not_false, Bool.and_true]
  rw [copyBytes, CopyWell, hsized]
  generalize (!flags.ascii && single && !env.isadev name) = changed
  have hfill : ∀ (o : Out) (s₁ : CopyState), o.device = false →
      ((if (fillSized env changed flags.ascii name (some o) s₁).2.cbreak.1 then none
        else (fillSized env changed flags.ascii name (some o) s₁).1).isSome ∧
        K (fillSized env changed flags.ascii name (some o) s₁).2.cbreak.2 ↔
      BytesWell (fun s => s.cbreak.1 = false ∧ K s.cbreak.2) env flags.ascii name s₁) :=
    fun o s₁ ho => by
    rw [← fillSized_well _ env changed flags.ascii name s₁ ho]
    cases (fillSized env changed flags.ascii name (some o) s₁).2.cbreak.1 with
    | false => simp
    | true => simp
  cases changed with
  | false => simpa using hfill out s hdev
  | true =>
    cases htrunc : (ask true s.truncs).1 with
    | false => simp [presize, htrunc, fillSized]
    | true =>
      have hstart := hfill { { out with pos := ((s.files name).getD []).length }.truncate with pos := 0 }
        { s with truncs := (ask true s.truncs).2 }
        ((truncate_device { out with pos := ((s.files name).getD []).length }).trans hdev)
      simpa [presize, htrunc] using hstart

theorem copySource_some {env : Env} {srcFile : Str} {single : Bool} {h h' : Source} {out out' : Out}
    {s s' : CopyState} (hok : copySource env srcFile single h out s = (some (h', out'), s')) :
    ∃ rSrc s₁, env.fillFnam h.fnam srcFile = some rSrc ∧ Untouched s s₁ ∧
      copyBytes env single (env.truepath rSrc) (deviceFlags env (env.truepath rSrc) h.flags) out s₁
        = (some out', s') := by
  rw [copySource] at hok
  cases hfill : env.fillFnam h.fnam srcFile with
  | none =>
    rw [hfill] at hok
    cases hok
  | some rSrc =>
    have hopen : Untouched s (s.openFile env (env.truepath rSrc)).2 := ⟨rfl, rfl⟩
    rw [hfill] at hok
    dsimp only at hok
    generalize s.openFile env (env.truepath rSrc) = p at hopen hok
    obtain ⟨ok, s₁⟩ := p
    have hbreak : Untouched s₁ s₁.cbreak.2 := ⟨rfl, rfl⟩
    cases ok with
    | false => cases hok
    | true =>
      dsimp only at hok
      generalize s₁.cbreak = q at hbreak hok
      obtain ⟨brk, s₂⟩ := q
      cases brk with
      | true => cases hok
      | false =>
        dsimp only at hok
        split at hok
        · cases hok
        · next hbytes =>
          cases hok
          exact ⟨rSrc, s₂, rfl, hopen.trans hbreak, hbytes⟩

theorem copySource_untouched (env : Env) (srcFile : Str) (single : Bool) (h : Source) (out : Out)
    (s : CopyState) : Untouched s (copySource env srcFile single h out s).2 := by
  rw [copySource]
  cases env.fillFnam h.fnam srcFile with
  | none => exact .refl s
  | some rSrc =>
    have hopen : Untouched s (s.openFile env (env.truepath rSrc)).2 := ⟨rfl, rfl⟩
    dsimp only
    generalize s.openFile env (env.truepath rSrc) = p at hopen ⊢
    obtain ⟨ok, s₁⟩ := p
    have hbreak : Untouched s₁ s₁.cbreak.2 := ⟨rfl, rfl⟩
    cases ok with
    | false => exact hopen
    | true =>
      dsimp only
      generalize s₁.cbreak = q at hbreak ⊢
      obtain ⟨brk, s₂⟩ := q
      cases brk with
      | true => exact hopen.trans hbreak
      | false =>
        have hbytes := copyBytes_untouched env single (env.truepath rSrc)
          (deviceFlags env (env.truepath rSrc) h.flags) out s₂
        dsimp only
        generalize copyBytes env single (env.truepath rSrc)
          (deviceFlags env (env.truepath rSrc) h.flags) out s₂ = r at hbytes ⊢
        obtain ⟨done, s₃⟩ := r
        cases done with
        | none => exact hopen.trans (hbreak.trans hbytes)
        | some out => exact hopen.trans (hbreak.trans hbytes)

theorem copySource_well (K : CopyState → Prop) (env : Env) (srcFile : Str) (single : Bool) (h : Source)
    {out : Out} (s : CopyState) (hdev : out.device = false) :
    (copySource env srcFile single h out s).1.isSome ∧ K (copySource env srcFile single h out s).2 ↔
      SourceWell K env srcFile single h s := by
  rw [copySource, SourceWell]
  cases env.fillFnam h.fnam srcFile with
  | none => simp
  | some rSrc =>
    dsimp only
    generalize s.openFile env (env.truepath rSrc) = p
    obtain ⟨ok, s₁⟩ := p
    cases ok with
    | false => simp
    | true =>
      dsimp only
      generalize s₁.cbreak = q
      obtain ⟨brk, s₂⟩ := q
      cases brk with
      | true => simp
      | false =>
        have hcopy := copyBytes_well K env single (env.truepath rSrc)
          (deviceFlags env (env.truepath rSrc) h.flags) s₂ hdev
        dsimp only
        generalize copyBytes env single (env.truepath rSrc)
          (deviceFlags env (env.truepath rSrc) h.flags) out s₂ = r at hcopy ⊢
        obtain ⟨done, s₃⟩ := r
        cases done with
        | none => simpa using hcopy
        | some out => simpa using hcopy

theorem copySources_untouched (env : Env) (srcFile : Str) (single : Bool) :
    ∀ (src : List Source) (out : Out) (s : CopyState),
      Untouched s (copySources env srcFile single src out s).2
  | [], _, s => .refl s
  | h :: app, out, s => by
    have hsource := copySource_untouched env srcFile single h out s
    rw [copySources]
    generalize copySource env srcFile single h out s = p at hsource ⊢
    obtain ⟨done, s₁⟩ := p
    cases done with
    | none => exact hsource
    | some r =>
      have hrest := hsource.trans (copySources_untouched env srcFile single app r.2 s₁)
      dsimp only
      generalize copySources env srcFile single app r.2 s₁ = q at hrest ⊢
      obtain ⟨done, s₂⟩ := q
      cases done with
      | none => exact hrest
      | some _ => exact hrest

theorem copySources_well (K : CopyState → Prop) (env : Env) (srcFile : Str) (single : Bool) :
    ∀ (src : List Source) {out : Out} (s : CopyState), out.device = false →
      ((copySources env srcFile single src out s).1.isSome ∧
        K (copySources env srcFile single src out s).2 ↔ SourcesWell K env srcFile single src s)
  | [], out, s, _ => by simp [copySources, SourcesWell]
  | h :: app, out, s, hdev => by
    rw [SourcesWell, ← copySource_well _ env srcFile single h s hdev, copySources]
    cases hsource : copySource env srcFile single h out s with
    | mk done s₁ =>
      cases done with
      | none => simp
      | some r =>
        obtain ⟨h', out'⟩ := r
        obtain ⟨rSrc, s₂, -, -, hbytes⟩ := copySource_some hsource
        have hrest := copySources_well K env srcFile single app s₁
          ((copyBytes_device hbytes).trans hdev)
        dsimp only
        generalize copySources env srcFile single app out' s₁ = q at hrest ⊢
        obtain ⟨done, s₃⟩ := q
        cases done with
        | none => simpa using hrest
        | some _ => simpa using hrest

theorem copySources_device {env : Env} {srcFile : Str} {single : Bool} :
    ∀ {src src' : List Source} {out out' : Out} {s s' : CopyState},
      copySources env srcFile single src out s = (some (src', out'), s') → out'.device = out.device
  | [], _, _, _, _, _, hok => by
    cases hok
    rfl
  | hd :: app, src', out, out', s, s', hok => by
    rw [copySources] at hok
    cases hsource : copySource env srcFile single hd out s with
    | mk done s₁ =>
      rw [hsource] at hok
      cases done with
      | none => cases hok
      | some r =>
        obtain ⟨hd', out₁⟩ := r
        obtain ⟨rSrc, s₂, -, -, hbytes⟩ := copySource_some hsource
        dsimp only at hok
        split at hok
        · cases hok
        · next hrest =>
          cases hok
          exact (copySources_device hrest).trans (copyBytes_device hbytes)

/-- Several sources are appended. -/
theorem copySources_appended {data : List UInt8} {env : Env} {srcFile : Str} :
    ∀ {src src' : List Source} {out out' : Out} {s s' : CopyState}, Appended data out →
      copySources env srcFile false src out s = (some (src', out'), s') → Appended data out'
  | [], _, _, _, _, _, h, hok => by
    cases hok
    exact h
  | hd :: app, src', out, out', s, s', h, hok => by
    rw [copySources] at hok
    cases hsource : copySource env srcFile false hd out s with
    | mk done s₁ =>
      rw [hsource] at hok
      cases done with
      | none => cases hok
      | some r =>
        obtain ⟨hd', out₁⟩ := r
        obtain ⟨rSrc, s₂, -, -, hbytes⟩ := copySource_some hsource
        have hfirst : Appended data out₁ :=
          copyBytes_appended (by rw [sizeChanged, Bool.and_false, Bool.false_and, Bool.false_and]) h hbytes
        dsimp only at hok
        split at hok
        · cases hok
        · next hrest =>
          cases hok
          exact copySources_appended hfirst hrest

/-! ## The file -/

/-- What a single binary source puts in the place of what is in the file. -/
def replacement (env : Env) (srcFile : Str) (s : CopyState) : List Source → Option (List UInt8)
  | [h] =>
    match env.fillFnam h.fnam srcFile with
    | none => none
    | some rSrc =>
      let name := env.truepath rSrc
      if !h.flags.ascii && !env.isadev name then some ((s.files name).getD []) else none
  | _ => none

theorem replacement_single {env : Env} {srcFile rSrc : Str} {h : Source} {s : CopyState} {out : Out}
    (hfill : env.fillFnam h.fnam srcFile = some rSrc) (hdev : out.device = false) :
    replacement env srcFile s [h] = if sizeChanged env true (env.truepath rSrc)
        (deviceFlags env (env.truepath rSrc) h.flags) out
      then some ((s.files (env.truepath rSrc)).getD []) else none := by
  rw [sizeChanged, deviceFlags, hdev, Bool.and_true, Bool.not_false, Bool.and_true]
  cases hname : env.isadev (env.truepath rSrc) with
  | false => simp [replacement, hfill, hname]
  | true => simp [replacement, hfill, hname]

theorem copySources_content {data : List UInt8} {env : Env} {srcFile : Str} {src src' : List Source}
    {out out' : Out} {s s' : CopyState} (h : Appended data out)
    (hok : copySources env srcFile (src.length == 1) src out s = (some (src', out'), s')) :
    Appended ((replacement env srcFile s src).getD data) out' ∧
      ∀ new, replacement env srcFile s src = some new → out'.content = new := by
  match src, hok with
  | [], hok => exact ⟨copySources_appended h hok, fun _ hnew => by cases hnew⟩
  | _ :: _ :: _, hok => exact ⟨copySources_appended h hok, fun _ hnew => by cases hnew⟩
  | [hd], hok =>
    change copySources env srcFile true [hd] out s = _ at hok
    rw [copySources] at hok
    cases hsource : copySource env srcFile true hd out s with
    | mk done s₁ =>
      rw [hsource] at hok
      cases done with
      | none => cases hok
      | some r =>
        obtain ⟨hd', out₁⟩ := r
        obtain ⟨rSrc, s₂, hfill, hsame, hbytes⟩ := copySource_some hsource
        cases hok
        rw [replacement_single hfill h.device]
        cases hchanged : sizeChanged env true (env.truepath rSrc)
            (deviceFlags env (env.truepath rSrc) hd.flags) out with
        | false => exact ⟨copyBytes_appended hchanged h hbytes, fun _ hnew => by cases hnew⟩
        | true =>
          obtain ⟨happ, hcontent⟩ := copyBytes_written hchanged hbytes
          rw [hsame.files] at happ hcontent
          exact ⟨happ, fun new hnew => hcontent.trans (Option.some.inj hnew)⟩

/-- What is behind a text. -/
def textEnd (flags : Mode) : List UInt8 := if flags.ascii then [ctrlZ] else []

theorem closeDest_well {out : Out} (hdev : out.device = false) (name : Str) (s : CopyState) :
    (closeDest name out s).1 = true ↔ CloseWell s := by
  rw [closeDest, CloseWell, hdev]
  cases s.destFlags.ascii with
  | false => simp
  | true => simp

theorem closeDest_files {data : List UInt8} {out : Out} {name : Str} {s : CopyState}
    (h : Appended data out) (hok : (closeDest name out s).1 = true) :
    (closeDest name out s).2.files name = some (out.content ++ textEnd s.destFlags) := by
  have hwrite := h.written.content_write [ctrlZ]
  have hdev := write_device out [ctrlZ]
  rw [closeDest, h.device] at hok ⊢
  rw [textEnd]
  cases hasc : s.destFlags.ascii with
  | false => simp [CopyState.setFile, h.device]
  | true =>
    cases hw : (ask none s.writes).1 with
    | some n => simp [hasc, hw] at hok
    | none => simp [CopyState.setFile, hw, hwrite, hdev, h.device]

/-- Nothing but this file is different. -/
def OnlyFile (name : Str) (s s' : CopyState) : Prop := ∀ other, other ≠ name → s'.files other = s.files other

theorem OnlyFile.trans {name : Str} {s s' s'' : CopyState} (h : OnlyFile name s s')
    (h' : OnlyFile name s' s'') : OnlyFile name s s'' :=
  fun other hne => (h' other hne).trans (h other hne)

theorem Untouched.onlyFile {s s' : CopyState} (h : Untouched s s') (name : Str) : OnlyFile name s s' :=
  fun other _ => congrFun h.files other

theorem setFile_files (s : CopyState) (name : Str) (data : Option (List UInt8)) :
    (s.setFile name data).files = Function.update s.files name data := rfl

theorem setFile_onlyFile (s : CopyState) (name : Str) (data : Option (List UInt8)) :
    OnlyFile name s (s.setFile name data) :=
  fun _ hne => Function.update_of_ne hne _ _

theorem unlink_onlyFile (env : Env) (name : Str) (s : CopyState) :
    OnlyFile name s (s.unlink env name) := by
  rw [CopyState.unlink]
  split
  · exact fun _ _ => rfl
  · exact setFile_onlyFile s name none

theorem closeDest_onlyFile (name : Str) (out : Out) (s : CopyState) :
    OnlyFile name s (closeDest name out s).2 := by
  have hput : ∀ (o : Out) (t : CopyState), t.files = s.files →
      OnlyFile name s (if o.device then t else t.setFile name (some o.content)) := fun o t ht other hne => by
    split
    · exact congrFun ht other
    · exact (setFile_onlyFile t name _ other hne).trans (congrFun ht other)
  rw [closeDest]
  dsimp only
  split
  · exact hput _ _ rfl
  · exact hput _ _ rfl

theorem fillDest_onlyFile (env : Env) (srcFile name : Str) (src : List Source) (out : Out)
    (s : CopyState) : OnlyFile name s (fillDest env srcFile name src out s).2 := by
  have hsources := (copySources_untouched env srcFile (src.length == 1) src out s).onlyFile name
  rw [fillDest]
  generalize copySources env srcFile (src.length == 1) src out s = p at hsources
  obtain ⟨done, s₁⟩ := p
  cases done with
  | none => exact hsources.trans (unlink_onlyFile env name s₁)
  | some r =>
    have hclose := hsources.trans (closeDest_onlyFile name r.2 s₁)
    dsimp only
    generalize closeDest name r.2 s₁ = q at hclose
    obtain ⟨ok, s₂⟩ := q
    cases ok with
    | false => exact hclose.trans (unlink_onlyFile env name s₂)
    | true => exact hclose

/-- The data of a file are still there. -/
def StillThere (s s' : CopyState) (name : Str) : Prop :=
  ∀ data, s.files name = some data → ∃ more, s'.files name = some (data ++ more)

/-- A file is appended to, and not written from its start unless it begins as before then. -/
def FillKeeps (env : Env) (srcFile name : Str) (src : List Source) (s : CopyState) : Prop :=
  SourcesWell CloseWell env srcFile (src.length == 1) src s ∧
    ∀ new, replacement env srcFile s src = some new →
      (s.files name).getD [] <+: new ++ textEnd s.destFlags

instance (env : Env) (srcFile name : Str) (src : List Source) (s : CopyState) :
    Decidable (FillKeeps env srcFile name src s) :=
  have : Decidable (∀ new, replacement env srcFile s src = some new →
      (s.files name).getD [] <+: new ++ textEnd s.destFlags) :=
    @Option.decidableForallMem _ _ _ (replacement env srcFile s src)
  inferInstanceAs (Decidable (SourcesWell CloseWell env srcFile (src.length == 1) src s ∧
    ∀ new, replacement env srcFile s src = some new →
      (s.files name).getD [] <+: new ++ textEnd s.destFlags))

theorem fillDest_keeps {env : Env} {srcFile name : Str} {src : List Source} {s : CopyState}
    {data : List UInt8} (hname : env.isadev name = false) (hdata : s.files name = some data) :
    StillThere s (fillDest env srcFile name src ⟨data, data.length, false⟩ s).2 name ↔
      FillKeeps env srcFile name src s := by
  have hstart : Appended data ⟨data, data.length, false⟩ := ⟨rfl, List.prefix_rfl, rfl⟩
  have hwell := copySources_well CloseWell env srcFile (src.length == 1) src s hstart.device
  have hsame := copySources_untouched env srcFile (src.length == 1) src ⟨data, data.length, false⟩ s
  have hgone : ∀ t : CopyState, ¬ StillThere s (t.unlink env name) name := fun t hkeep => by
    obtain ⟨more, hmore⟩ := hkeep data hdata
    rw [CopyState.unlink, hname, if_neg Bool.false_ne_true, setFile_files,
      Function.update_self] at hmore
    cases hmore
  rw [fillDest, FillKeeps, ← hwell]
  cases hsources : copySources env srcFile (src.length == 1) src ⟨data, data.length, false⟩ s with
  | mk done s₁ =>
    rw [hsources] at hsame
    cases done with
    | none => simpa using hgone s₁
    | some r =>
      obtain ⟨src', out⟩ := r
      obtain ⟨happ, hnew⟩ := copySources_content hstart hsources
      have hclose := closeDest_well happ.device name s₁
      have hfiles : (closeDest name out s₁).1 = true → (closeDest name out s₁).2.files name
          = some (out.content ++ textEnd s₁.destFlags) := closeDest_files happ
      dsimp only
      generalize closeDest name out s₁ = q at hclose hfiles
      obtain ⟨ok, s₂⟩ := q
      cases ok with
      | false =>
        exact ⟨fun hkeep => absurd hkeep (hgone s₂),
          fun hand => absurd (hclose.mpr hand.1.2) Bool.false_ne_true⟩
      | true =>
        have hcontent := hfiles rfl
        rw [hsame.destFlags] at hcontent
        have hthere : StillThere s s₂ name ↔ data <+: out.content ++ textEnd s.destFlags :=
          ⟨fun hkeep => by
            obtain ⟨more, hmore⟩ := hkeep data hdata
            exact ⟨more, (Option.some.inj (hcontent.symm.trans hmore)).symm⟩,
          fun ⟨more, hmore⟩ data' hdata' => by
            rw [hdata] at hdata'
            cases hdata'
            exact ⟨more, hcontent.trans (congrArg some hmore.symm)⟩⟩
        rw [hthere, hdata]
        cases hrepl : replacement env srcFile s src with
        | none =>
          rw [hrepl] at happ
          exact ⟨fun _ => ⟨⟨rfl, hclose.mp rfl⟩, fun _ h => by cases h⟩,
            fun _ => happ.content.trans (List.prefix_append _ _)⟩
        | some new =>
          rw [hnew new hrepl]
          exact ⟨fun h => ⟨⟨rfl, hclose.mp rfl⟩, fun new' hnew' => by cases hnew'; exact h⟩,
            fun h => h.2 new rfl⟩

/-! ## A file that is found -/

theorem checkSources_files (env : Env) (srcFile rDest : Str) : ∀ (src : List Source) (s : CopyState),
    (checkSources env srcFile rDest src s).2.files = s.files
  | [], _ => rfl
  | h :: app, s => by
    rw [checkSources]
    cases env.fillFnam h.fnam srcFile with
    | none => rfl
    | some rSrc =>
      have hsame : (samefile env rDest rSrc s).2.files = s.files := rfl
      dsimp only
      generalize samefile env rDest rSrc s = p at hsame
      obtain ⟨same, s₁⟩ := p
      match same with
      | none => exact hsame
      | some true => exact hsame
      | some false => exact (checkSources_files env srcFile rDest app s₁).trans hsame

theorem setFlags_files (src : List Source) (s : CopyState) : (setFlags src s).2.files = s.files := by
  rw [setFlags]
  split
  · dsimp only
    split <;> rfl
  · rfl

theorem confirm_untouched (env : Env) (srcFile rDest : Str) (src : List Source) (s : CopyState) :
    Untouched s (confirm env srcFile rDest src s).2 := by
  have hopen : ∀ (name : Str) (t : CopyState), Untouched t (t.openFile env name).2 := fun _ _ => ⟨rfl, rfl⟩
  rw [confirm]
  split
  · have hdest := hopen (env.truepath rDest) s
    generalize s.openFile env (env.truepath rDest) = p at hdest
    obtain ⟨ok, s₁⟩ := p
    cases ok with
    | false => exact hdest
    | true =>
      dsimp only
      split
      · exact hdest
      · split
        · exact hdest
        · next rSrc _ =>
          have hsrc := hdest.trans (hopen (env.truepath rSrc) s₁)
          generalize s₁.openFile env (env.truepath rSrc) = q at hsrc
          obtain ⟨ok, s₂⟩ := q
          cases ok with
          | false => exact hsrc
          | true =>
            dsimp only
            split
            · exact ⟨hsrc.files, hsrc.destFlags⟩
            · split
              · exact ⟨hsrc.files, hsrc.destFlags⟩
              · split <;> exact ⟨hsrc.files, hsrc.destFlags⟩
  · exact .refl s

theorem prepare_files (env : Env) (dst srcFile : Str) (src : List Source) (s : CopyState) :
    (prepare env dst srcFile src s).2.2.2.files = s.files := by
  rw [prepare]
  cases env.fillFnam dst srcFile with
  | none => rfl
  | some rDest =>
    have hcheck := checkSources_files env srcFile rDest src s
    dsimp only
    generalize checkSources env srcFile rDest src s = p at hcheck
    obtain ⟨ok, s₁⟩ := p
    cases ok with
    | false => exact hcheck
    | true =>
      have hflags := (setFlags_files src s₁).trans hcheck
      dsimp only
      generalize setFlags src s₁ = q at hflags
      obtain ⟨src₁, s₂⟩ := q
      have hconfirm := (confirm_untouched env srcFile rDest src₁ s₂).files.trans hflags
      dsimp only
      generalize confirm env srcFile rDest src₁ s₂ = r at hconfirm
      obtain ⟨p, s₃⟩ := r
      cases p <;> exact hconfirm

theorem prepare_dest {env : Env} {dst srcFile rDest : Str} {src src' : List Source} {s s' : CopyState}
    {p : Prepared} (h : prepare env dst srcFile src s = (some rDest, p, src', s')) :
    env.fillFnam dst srcFile = some rDest := by
  rw [prepare] at h
  cases hfill : env.fillFnam dst srcFile with
  | none =>
    rw [hfill] at h
    cases h
  | some r =>
    rw [hfill] at h
    dsimp only at h
    split at h
    · cases h
      rfl
    · split at h
      · cases h
        rfl
      · cases h
        rfl

/-- The true path of the destination, for a file that is found. -/
def destOf (env : Env) (dst srcFile : Str) : Option Str := (env.fillFnam dst srcFile).map env.truepath

/-- What is asked for when a file is appended to: the destination is a device, cannot be opened, or
keeps its data. -/
def FileKeeps (env : Env) (dst srcFile : Str) (src : List Source) (s : CopyState) : Prop :=
  match prepare env dst srcFile src s with
  | (some rDest, .go, src, s) =>
    let name := env.truepath rDest
    let p := s.openFile env name
    env.isadev name = true ∨ p.1 = false ∨ FillKeeps env srcFile name src p.2
  | _ => True

instance (env : Env) (dst srcFile : Str) (src : List Source) (s : CopyState) :
    Decidable (FileKeeps env dst srcFile src s) := by
  unfold FileKeeps
  split <;> infer_instance

theorem copyFile_other {env : Env} {dst srcFile : Str} {src : List Source} {s : CopyState} {name : Str}
    (hne : destOf env dst srcFile ≠ some name) :
    (copyFile env true dst srcFile src s).2.files name = s.files name := by
  have hfiles := congrFun (prepare_files env dst srcFile src s) name
  rw [copyFile]
  cases hprep : prepare env dst srcFile src s with
  | mk rDest r =>
    obtain ⟨p, src₁, s₁⟩ := r
    rw [hprep] at hfiles
    match rDest, p with
    | none, _ => exact hfiles
    | some _, .quit => exact hfiles
    | some _, .skip => exact hfiles
    | some rDest, .go =>
      have hname : name ≠ env.truepath rDest := fun heq => hne (by
        rw [destOf, prepare_dest hprep, heq]
        rfl)
      dsimp only [openDest]
      rw [if_pos rfl]
      have hopen : (s₁.openFile env (env.truepath rDest)).2.files name = s.files name := hfiles
      generalize s₁.openFile env (env.truepath rDest) = q at hopen
      obtain ⟨ok, s₂⟩ := q
      cases ok with
      | false => exact hopen
      | true => exact (fillDest_onlyFile env srcFile _ src₁ _ s₂ name hname).trans hopen

theorem fillDest_device {env : Env} {srcFile name : Str} {src : List Source} {out : Out}
    {s : CopyState} (hname : env.isadev name = true) (hdev : out.device = true) :
    (fillDest env srcFile name src out s).2.files = s.files := by
  have hsame := (copySources_untouched env srcFile (src.length == 1) src out s).files
  have hunlink : ∀ t : CopyState, t.unlink env name = t := fun t => by
    rw [CopyState.unlink, hname, if_pos rfl]
  rw [fillDest]
  cases hsources : copySources env srcFile (src.length == 1) src out s with
  | mk done s₁ =>
    rw [hsources] at hsame
    cases done with
    | none => exact (congrArg CopyState.files (hunlink s₁)).trans hsame
    | some r =>
      obtain ⟨src', out'⟩ := r
      have hdev' := (copySources_device hsources).trans hdev
      have hclose : (closeDest name out' s₁).2.files = s.files := by
        rw [closeDest, hdev', Bool.not_true, Bool.and_false, if_neg Bool.false_ne_true]
        dsimp only
        rw [hdev', if_pos rfl]
        exact hsame
      dsimp only
      generalize closeDest name out' s₁ = q at hclose
      obtain ⟨ok, s₂⟩ := q
      cases ok with
      | false => exact (congrArg CopyState.files (hunlink s₂)).trans hclose
      | true => exact hclose

theorem stillThere_of_eq {s s' : CopyState} {name : Str} (h : s'.files name = s.files name) :
    StillThere s s' name :=
  fun data hdata => ⟨[], by rw [List.append_nil, h, hdata]⟩

theorem StillThere.trans {s s' s'' : CopyState} {name : Str} (h : StillThere s s' name)
    (h' : StillThere s' s'' name) : StillThere s s'' name := fun data hdata => by
  obtain ⟨more, hmore⟩ := h data hdata
  obtain ⟨more', hmore'⟩ := h' _ hmore
  exact ⟨more ++ more', by rw [hmore', List.append_assoc]⟩

theorem stillThere_congr {s s₁ s' : CopyState} {name : Str} (h : s₁.files name = s.files name) :
    StillThere s₁ s' name ↔ StillThere s s' name := by
  rw [StillThere, StillThere, h]

theorem copyFile_keeps (env : Env) (dst srcFile : Str) (src : List Source) (s : CopyState) :
    (∀ name, StillThere s (copyFile env true dst srcFile src s).2 name) ↔
      FileKeeps env dst srcFile src s := by
  have hfiles := prepare_files env dst srcFile src s
  have hsame : ∀ s' : CopyState, s'.files = s.files → ((∀ name, StillThere s s' name) ↔ True) :=
    fun s' h => iff_true_intro fun name => stillThere_of_eq (congrFun h name)
  rw [copyFile, FileKeeps]
  cases hprep : prepare env dst srcFile src s with
  | mk rDest r =>
    obtain ⟨p, src₁, s₁⟩ := r
    rw [hprep] at hfiles
    match rDest, p with
    | none, _ => exact hsame s₁ hfiles
    | some _, .quit => exact hsame s₁ hfiles
    | some _, .skip => exact hsame s₁ hfiles
    | some rDest, .go =>
      dsimp only [openDest]
      rw [if_pos rfl]
      generalize env.truepath rDest = name
      have hopen : (s₁.openFile env name).2.files = s.files := hfiles
      have hthere : (s₁.openFile env name).1 = true →
          env.isadev name = true ∨ ∃ data, (s₁.openFile env name).2.files name = some data := fun h => by
        rw [CopyState.openFile, Bool.and_eq_true, Bool.or_eq_true] at h
        exact h.1.imp_right Option.isSome_iff_exists.mp
      generalize s₁.openFile env name = q at hopen hthere
      obtain ⟨ok, s₂⟩ := q
      cases ok with
      | false => exact (hsame s₂ hopen).trans (iff_true_intro (.inr (.inl rfl))).symm
      | true =>
        cases hname : env.isadev name with
        | true =>
          exact (hsame _ ((fillDest_device hname rfl).trans hopen)).trans
            (iff_true_intro (.inl rfl)).symm
        | false =>
          obtain ⟨data, hdata⟩ := (hthere rfl).resolve_left (by rw [hname]; exact Bool.false_ne_true)
          have hkeeps := @fillDest_keeps env srcFile name src₁ s₂ data hname hdata
          have hdata' : s₂.files name = some data := hdata
          dsimp only
          rw [hdata', Option.getD_some, ← hkeeps, stillThere_congr (congrFun hopen name)]
          refine ⟨fun h => .inr (.inr (h name)), fun h other => ?_⟩
          by_cases hother : other = name
          · subst hother
            exact (h.resolve_left Bool.false_ne_true).resolve_left Bool.false_ne_true.symm
          · exact stillThere_of_eq ((fillDest_onlyFile env srcFile name src₁ _ s₂ other hother).trans
              (congrFun hopen other))

/-! ## All files -/

/-- Each file that is found keeps its data, as long as COPY goes on. -/
def AllKeep (env : Env) (dst : Str) : List Str → List Source → CopyState → Prop
  | [], _, _ => True
  | srcFile :: found, src, s =>
    FileKeeps env dst srcFile src s ∧
      ∀ src' s', copyFile env true dst srcFile src s = (some src', s') → AllKeep env dst found src' s'

theorem copyAll_other {env : Env} {dst name : Str} : ∀ {found : List Str} {src : List Source}
    {s : CopyState}, some name ∉ found.map (destOf env dst) →
      (copyAll env true dst found src s).2.files name = s.files name
  | [], _, _, _ => rfl
  | srcFile :: found, src, s, hnot => by
    rw [List.map_cons, List.mem_cons, not_or] at hnot
    have hfile := @copyFile_other env dst srcFile src s name (Ne.symm hnot.1)
    rw [copyAll]
    generalize copyFile env true dst srcFile src s = p at hfile ⊢
    obtain ⟨done, s₁⟩ := p
    cases done with
    | none => exact hfile
    | some src₁ => exact (copyAll_other hnot.2).trans hfile

theorem AllKeep.stillThere {env : Env} {dst : Str} : ∀ {found : List Str} {src : List Source}
    {s : CopyState}, AllKeep env dst found src s →
      ∀ name, StillThere s (copyAll env true dst found src s).2 name
  | [], _, _, _, _ => stillThere_of_eq rfl
  | srcFile :: found, src, s, ⟨hfile, hrest⟩, name => by
    have hkeeps := (copyFile_keeps env dst srcFile src s).mpr hfile
    rw [copyAll]
    generalize copyFile env true dst srcFile src s = p at hkeeps hrest ⊢
    obtain ⟨done, s₁⟩ := p
    cases done with
    | none => exact hkeeps name
    | some src₁ => exact (hkeeps name).trans ((hrest src₁ s₁ rfl).stillThere name)

theorem allKeep_of_stillThere {env : Env} {dst : Str} : ∀ {found : List Str} {src : List Source}
    {s : CopyState}, (found.map (destOf env dst)).Nodup →
      (∀ name, StillThere s (copyAll env true dst found src s).2 name) → AllKeep env dst found src s
  | [], _, _, _, _ => trivial
  | srcFile :: found, src, s, hnodup, h => by
    rw [List.map_cons, List.nodup_cons] at hnodup
    have hother := @copyFile_other env dst srcFile src s
    rw [AllKeep, ← copyFile_keeps env dst srcFile src s]
    rw [copyAll] at h
    generalize copyFile env true dst srcFile src s = p at hother h ⊢
    obtain ⟨done, s₁⟩ := p
    cases done with
    | none => exact ⟨h, fun _ _ heq => by cases heq⟩
    | some src₁ =>
      -- the destination is not touched again, and no other file has been touched
      refine ⟨fun name => ?_, fun src' s' heq => ?_⟩
      · by_cases hdest : destOf env dst srcFile = some name
        · intro data hdata
          obtain ⟨more, hmore⟩ := h name data hdata
          rw [copyAll_other (hdest ▸ hnodup.1)] at hmore
          exact ⟨more, hmore⟩
        · exact stillThere_of_eq (hother hdest)
      · cases heq
        refine allKeep_of_stillThere hnodup.2 fun name => ?_
        by_cases hdest : destOf env dst srcFile = some name
        · exact stillThere_of_eq (copyAll_other (hdest ▸ hnodup.1))
        · exact (stillThere_congr (hother hdest)).mpr (h name)

/-- **What is appended to keeps its data if nothing fails behind its opening, and no single binary
source is written over it.**  As the files that are found have different destinations, only
then. -/
theorem append_keeps (env : Env) (dst : Str) (h : Source) (app : List Source) (s : CopyState)
    (happ : app ≠ []) (hsame : env.truepath h.fnam = env.truepath dst) :
    (((ask true s.mems).1 = true →
        AllKeep env dst (matching env h.fnam) app { s with mems := (ask true s.mems).2 }) →
      ∀ name data, s.files name = some data →
        ∃ more, (copyFiles env dst h app s).2.files name = some (data ++ more)) ∧
    (((matching env h.fnam).map (destOf env dst)).Nodup →
      (∀ name data, s.files name = some data →
        ∃ more, (copyFiles env dst h app s).2.files name = some (data ++ more)) →
      (ask true s.mems).1 = true →
        AllKeep env dst (matching env h.fnam) app { s with mems := (ask true s.mems).2 }) := by
  have hcopy : (copyFiles env dst h app s).2 = if (ask true s.mems).1 then
      (copyAll env true dst (matching env h.fnam) app { s with mems := (ask true s.mems).2 }).2
      else { s with mems := (ask true s.mems).2 } := by
    rw [copyFiles, samefile]
    dsimp only
    cases (ask true s.mems).1 with
    | false => rfl
    | true =>
      simp only [hsame, beq_self_eq_true, if_true, if_neg happ]
      rw [copy]
      split
      · next hnil => rw [hnil]; rfl
      · rfl
  rw [hcopy]
  cases (ask true s.mems).1 with
  | false =>
    exact ⟨fun _ name => stillThere_of_eq rfl, fun _ _ h => absurd h Bool.false_ne_true⟩
  | true => exact ⟨fun hall => (hall rfl).stillThere, fun hnodup hthere _ => allKeep_of_stillThere hnodup hthere⟩

/-! ## Two sources -/

/-- A directory in which names are true paths, and nothing is a device. -/
def plainEnv : Env where
  truepath := id
  fillFnam := fun pattern _ => some pattern
  found := fun _ => []
  isadev := fun _ => false
  input := fun _ => []
  interactiveCommand := true

/-- The files `A` and `B`, and nothing that fails. -/
def plainState : CopyState where
  files := fun name => if name = [65] then some [1, 2] else if name = [66] then some [3] else none
  optY := false
  destFlags := ⟨false, false⟩
  mems := []
  allocs := []
  opens := []
  breaks := []
  reads := []
  writes := []
  truncs := []
  ticks := []
  closes := []
  prompts := []

/-- `COPY A+C+B A` deletes `A` if there is no `C`. -/
theorem append_deletes : ¬ ∀ name data, plainState.files name = some data → ∃ more,
    (copyFiles plainEnv [65] ⟨[65], ⟨false, false⟩⟩ [⟨[67], ⟨false, false⟩⟩, ⟨[66], ⟨false, false⟩⟩]
      plainState).2.files name = some (data ++ more) := fun hkeeps => by
  obtain ⟨more, hmore⟩ := hkeeps [65] [1, 2] rfl
  have hgone : (copyFiles plainEnv [65] ⟨[65], ⟨false, false⟩⟩
      [⟨[67], ⟨false, false⟩⟩, ⟨[66], ⟨false, false⟩⟩] plainState).2.files [65] = none := by
    decide +kernel
  rw [hgone] at hmore
  cases hmore

/-- `COPY A+B+B A` keeps `A`. -/
theorem append_keeps_twice : ∃ more, (copyFiles plainEnv [65] ⟨[65], ⟨false, false⟩⟩
    [⟨[66], ⟨false, false⟩⟩, ⟨[66], ⟨false, false⟩⟩] plainState).2.files [65]
      = some ([1, 2] ++ more) := by
  have hwell : FileKeeps plainEnv [65] [65] [⟨[66], ⟨false, false⟩⟩, ⟨[66], ⟨false, false⟩⟩] plainState := by
    decide +kernel
  exact (append_keeps plainEnv [65] ⟨[65], ⟨false, false⟩⟩
    [⟨[66], ⟨false, false⟩⟩, ⟨[66], ⟨false, false⟩⟩] plainState (by decide) rfl).1
    (fun _ => ⟨hwell, fun _ _ _ => trivial⟩) [65] [1, 2] rfl

end Shell
end BurdahDos
