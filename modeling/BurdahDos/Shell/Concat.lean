import BurdahDos.Shell.Append
import Mathlib

/-!
# What COPY makes of its sources

A file that COPY has written is the concatenation of what its sources count for, with a Ctrl-Z
behind a text: `copyFile_content`, for every file that is found.  `copyFiles_content_iff` is about
a command that has one destination.  Where that is its own first source, its old content stands in
front, unless a single binary source is all that is left to append: that one takes its place.
-/

set_option autoImplicit false

namespace BurdahDos
namespace Shell

/-! ## What a source counts for -/

/-- What a source counts for: a text ends at its first Ctrl-Z. -/
def counted (env : Env) (srcFile : Str) (files : Str → Option (List UInt8)) (h : Source) : List UInt8 :=
  match destOf env h.fnam srcFile with
  | none => []
  | some name => upToCtrlZ h.flags.ascii ((files name).getD [])

/-- What sources count for, one behind the other. -/
def concat (env : Env) (srcFile : Str) (files : Str → Option (List UInt8)) (src : List Source) :
    List UInt8 :=
  src.flatMap (counted env srcFile files)

/-- The sources with the flags that they are copied with. -/
def modes (src : List Source) : List Source := if 1 < src.length then defaultAscii src else src

/-- The flags of the destination. -/
def destMode (src : List Source) (m : Mode) : Mode :=
  if 1 < src.length ∧ m.ascii = false ∧ m.binary = false then { m with ascii := true } else m

/-- The sources are regular files. -/
def Regular (env : Env) (srcFile : Str) (src : List Source) : Prop :=
  ∀ h ∈ src, ∀ name, destOf env h.fnam srcFile = some name → env.isadev name = false

theorem upToCtrlZ_nil (asc : Bool) : upToCtrlZ asc [] = [] := by
  cases asc
  · rfl
  · rfl

theorem upToCtrlZ_of_last {asc : Bool} {a b : List UInt8} (h : (asc && a.contains ctrlZ) = true) :
    upToCtrlZ asc (a ++ b) = upToCtrlZ asc a := by
  rw [Bool.and_eq_true] at h
  obtain ⟨rfl, h⟩ := h
  obtain ⟨u, v, rfl, hu⟩ := List.eq_append_cons_of_mem (List.contains_iff_mem.1 h)
  have hp : ∀ c ∈ u, (c != ctrlZ) = true := fun c hc => by
    rw [bne_iff_ne]
    rintro rfl
    exact hu hc
  rw [upToCtrlZ, upToCtrlZ, if_pos rfl, if_pos rfl, List.append_assoc, List.takeWhile_append_of_pos hp,
    List.takeWhile_append_of_pos hp]
  rfl

theorem upToCtrlZ_of_not_last {asc : Bool} {a : List UInt8} (h : (asc && a.contains ctrlZ) = false)
    (b : List UInt8) : upToCtrlZ asc (a ++ b) = a ++ upToCtrlZ asc b := by
  cases asc with
  | false => rfl
  | true =>
    rw [Bool.true_and] at h
    have hp : ∀ c ∈ a, (c != ctrlZ) = true := fun c hc => by
      rw [bne_iff_ne]
      rintro rfl
      rw [List.contains_iff_mem.2 hc] at h
      cases h
    rw [upToCtrlZ, upToCtrlZ, if_pos rfl, if_pos rfl, List.takeWhile_append_of_pos hp]

/-! ## The destination at its end -/

/-- A file with these data, positioned at its end. -/
structure AtEnd (data : List UInt8) (out : Out) : Prop where
  device : out.device = false
  content : out.content = data
  pos : out.pos = data.length

theorem AtEnd.written {data : List UInt8} {out : Out} (h : AtEnd data out) : Written out.content out :=
  ⟨h.device, List.prefix_rfl, by rw [h.content, h.pos]⟩

theorem AtEnd.write {data : List UInt8} {out : Out} (h : AtEnd data out) (bytes : List UInt8) :
    AtEnd (data ++ bytes) (out.write bytes) := by
  have hpos := (h.written.write bytes).pos
  exact ⟨(h.written.write bytes).device, by rw [h.written.content_write bytes, h.content],
    by rw [hpos, h.content]⟩

theorem AtEnd.appended {data : List UInt8} {out : Out} (h : AtEnd data out) : Appended data out :=
  ⟨h.device, h.content ▸ List.prefix_rfl, by rw [h.content, h.pos]⟩

/-- The loop of `BIGcopy` writes what the source counts for, whatever the size of the buffer. -/
theorem bigLoop_counted (asc : Bool) (size : ℕ) : ∀ (cs : List (List UInt8)) {data : List UInt8} {out : Out}
    (s : CopyState), ShortLast size cs → AtEnd data out → (bigLoop asc false size cs out s).1 = 0 →
    AtEnd (data ++ upToCtrlZ asc cs.flatten) (bigLoop asc false size cs out s).2.1
  | [], data, out, s, _, h, _ => by
    rw [List.flatten_nil, upToCtrlZ_nil, List.append_nil]
    exact h
  | chunk :: rest, data, out, s, hshort, h, hok => by
    have hwrite := h.write (upToCtrlZ asc chunk)
    rw [bigLoop] at hok ⊢
    dsimp only at hok ⊢
    split at hok
    · cases hok
    · rw [if_neg ‹_›]
      cases hw : (ask none s.writes).1 with
      | some n =>
        rw [hw, h.device] at hok
        cases hok
      | none =>
        rw [hw] at hok
        dsimp only at hok ⊢
        split at hok
        · cases hok
        · rw [if_neg ‹_›, List.flatten_cons]
          rw [lastChunk, Bool.false_and, Bool.not_false, Bool.and_true] at hok ⊢
          by_cases hz : (asc && chunk.contains ctrlZ) = true
          · rw [hz, Bool.true_or, if_pos rfl, upToCtrlZ_of_last hz]
            exact hwrite
          · rw [Bool.not_eq_true] at hz
            have hall := upToCtrlZ_of_not_last hz []
            rw [List.append_nil, upToCtrlZ_nil, List.append_nil] at hall
            rw [hz, hall, Bool.false_or] at hok ⊢
            rw [hall] at hwrite
            rw [upToCtrlZ_of_not_last hz, ← List.append_assoc]
            split at hok
            · next hlast =>
              rw [if_pos hlast, hshort.1 (of_decide_eq_true hlast), List.flatten_nil, upToCtrlZ_nil,
                List.append_nil]
              exact hwrite
            · rw [if_neg ‹_›]
              exact bigLoop_counted asc size rest _ hshort.2 hwrite hok

theorem bigCopy_counted {env : Env} {asc : Bool} {name : Str} (hname : env.isadev name = false)
    {data : List UInt8} {out : Out} {s : CopyState} (h : AtEnd data out)
    (hok : (bigCopy env asc name out s).1 = 0) :
    AtEnd (data ++ upToCtrlZ asc ((s.files name).getD [])) (bigCopy env asc name out s).2.1 := by
  have hfiles := (getBuffer_untouched 15 s).files
  have hpos := @getBuffer_pos 15 s
  rw [bigCopy] at hok ⊢
  generalize getBuffer 15 s = p at hok hfiles hpos
  obtain ⟨size, s₁⟩ := p
  cases size with
  | none => cases hok
  | some size =>
    have hinput : inputOf env name size s₁
        = chunks size ((s.files name).getD []).length ((s.files name).getD []) := by
      rw [inputOf, hname, if_neg Bool.false_ne_true]
      exact hfiles ▸ rfl
    dsimp only at hok ⊢
    rw [hinput, hname] at hok ⊢
    have hloop := bigLoop_counted asc size _ s₁ (chunks_shortLast size _ _) h hok
    rwa [chunks_flatten (hpos rfl) _ _ le_rfl] at hloop

/-- The bytes of a source go behind the data, unless the file had been given its size first. -/
theorem copyBytes_counted {env : Env} {single : Bool} {name : Str} (hname : env.isadev name = false)
    {flags : Mode} {data : List UInt8} {out out' : Out} {s s' : CopyState} (h : AtEnd data out)
    (hok : copyBytes env single name flags out s = (some out', s')) :
    AtEnd ((if sizeChanged env single name flags out then [] else data) ++
      upToCtrlZ flags.ascii ((s.files name).getD [])) out' := by
  by_cases hchanged : sizeChanged env single name flags out = true
  · have hasc : flags.ascii = false := by
      cases hasc : flags.ascii with
      | false => rfl
      | true => rw [sizeChanged, hasc, Bool.not_true, Bool.false_and] at hchanged; cases hchanged
    obtain ⟨happ, hcontent⟩ := copyBytes_written hchanged hok
    rw [if_pos hchanged, hasc, List.nil_append]
    exact ⟨happ.device, hcontent, by rw [happ.pos, hcontent]; rfl⟩
  · obtain ⟨sized, s₁, hsame, hsized, -, hrc, hout⟩ := copyBytes_some hok
    rw [Bool.not_eq_true] at hchanged
    rw [hchanged, if_neg Bool.false_ne_true, hsized hchanged] at hout
    rw [hsized hchanged] at hrc
    have hbytes := bigCopy_counted hname h hrc
    rw [hsame.files] at hbytes
    rw [hchanged, if_neg Bool.false_ne_true, hout]
    exact hbytes

/-! ## All sources -/

theorem copySource_counted {env : Env} {srcFile : Str} {single : Bool} {b b' : Source} {data : List UInt8}
    {out out' : Out} {s s' : CopyState} (hreg : Regular env srcFile [b]) (h : AtEnd data out)
    (hok : copySource env srcFile single b out s = (some (b', out'), s')) :
    AtEnd ((if single && (replacement env srcFile s [b]).isSome then [] else data) ++
      counted env srcFile s.files b) out' := by
  obtain ⟨rSrc, s₁, hfill, hsame, hbytes⟩ := copySource_some hok
  have hdest : destOf env b.fnam srcFile = some (env.truepath rSrc) := by rw [destOf, hfill, Option.map_some]
  have hname := hreg b (List.mem_singleton_self b) _ hdest
  have hflags : deviceFlags env (env.truepath rSrc) b.flags = b.flags := by
    rw [deviceFlags, hname, Bool.false_and, if_neg Bool.false_ne_true]
  rw [hflags] at hbytes
  have hcopy := copyBytes_counted hname h hbytes
  have hchanged : sizeChanged env single (env.truepath rSrc) b.flags out =
      (single && (replacement env srcFile s [b]).isSome) := by
    rw [sizeChanged, hname, h.device, replacement, hfill]
    dsimp only
    rw [hname]
    cases b.flags.ascii <;> cases single <;> rfl
  rw [hchanged, hsame.files] at hcopy
  rw [counted, hdest]
  exact hcopy

theorem copySources_counted {env : Env} {srcFile : Str} : ∀ {src src' : List Source} {data : List UInt8}
    {out out' : Out} {s s' : CopyState}, Regular env srcFile src → AtEnd data out →
    copySources env srcFile false src out s = (some (src', out'), s') →
    AtEnd (data ++ concat env srcFile s.files src) out'
  | [], _, data, out, _, s, _, _, h, hok => by
    cases hok
    rw [concat, List.flatMap_nil, List.append_nil]
    exact h
  | b :: app, src', data, out, out', s, s', hreg, h, hok => by
    have hfiles := (copySource_untouched env srcFile false b out s).files
    rw [copySources] at hok
    cases hsource : copySource env srcFile false b out s with
    | mk done s₁ =>
      rw [hsource] at hok hfiles
      cases done with
      | none => cases hok
      | some r =>
        obtain ⟨b', out₁⟩ := r
        have hfirst := copySource_counted (fun b hb => hreg b (List.mem_cons.2 (.inl (List.mem_singleton.1 hb)))) h
          hsource
        rw [Bool.false_and, if_neg Bool.false_ne_true] at hfirst
        dsimp only at hok
        split at hok
        · cases hok
        · next hrest =>
          cases hok
          have hall := copySources_counted (fun b hb => hreg b (List.mem_cons_of_mem _ hb)) hfirst hrest
          dsimp only at hfiles
          rw [hfiles, List.append_assoc] at hall
          exact hall

theorem replacement_of_length {env : Env} {srcFile : Str} {s : CopyState} {src : List Source}
    (h : src.length ≠ 1) : replacement env srcFile s src = none := by
  match src, h with
  | [], _ => rfl
  | [b], h => exact absurd rfl h
  | _ :: _ :: _, _ => rfl

/-- **What COPY has put into a file is the concatenation of what the sources count for**, behind
what stood there unless a single binary source has taken its place. -/
theorem copySources_concat {env : Env} {srcFile : Str} {src src' : List Source} {data : List UInt8}
    {out out' : Out} {s s' : CopyState} (hreg : Regular env srcFile src) (h : AtEnd data out)
    (hok : copySources env srcFile (src.length == 1) src out s = (some (src', out'), s')) :
    AtEnd ((if (replacement env srcFile s src).isSome then [] else data) ++
      concat env srcFile s.files src) out' := by
  match src, hok with
  | [], hok => exact copySources_counted hreg h hok
  | _ :: _ :: _, hok => exact copySources_counted hreg h hok
  | [b], hok =>
    change copySources env srcFile true [b] out s = _ at hok
    rw [copySources] at hok
    cases hsource : copySource env srcFile true b out s with
    | mk done s₁ =>
      rw [hsource] at hok
      cases done with
      | none => cases hok
      | some r =>
        cases hok
        have hfirst := copySource_counted hreg h hsource
        rw [Bool.true_and] at hfirst
        rw [concat, List.flatMap_singleton]
        exact hfirst

/-! ## A file that is found -/

theorem fillDest_concat {env : Env} {srcFile name : Str} {src src' : List Source} {data : List UInt8}
    {out : Out} {s s' : CopyState} (hreg : Regular env srcFile src) (h : AtEnd data out)
    (hok : fillDest env srcFile name src out s = (some src', s')) :
    s'.files name = some ((if (replacement env srcFile s src).isSome then [] else data) ++
      concat env srcFile s.files src ++ textEnd s.destFlags) := by
  have hsame := copySources_untouched env srcFile (src.length == 1) src out s
  rw [fillDest] at hok
  cases hsources : copySources env srcFile (src.length == 1) src out s with
  | mk done s₁ =>
    rw [hsources] at hok hsame
    cases done with
    | none => cases hok
    | some r =>
      have hend := copySources_concat hreg h hsources
      have hclose := @closeDest_files _ _ name s₁ hend.appended
      dsimp only at hok
      generalize closeDest name r.2 s₁ = q at hclose hok
      obtain ⟨ok, s₂⟩ := q
      cases ok with
      | false => cases hok
      | true =>
        cases hok
        rw [hclose rfl, hend.content, hsame.destFlags]

theorem samefile_false {env : Env} {f1 f2 : Str} {s s' : CopyState}
    (h : samefile env f1 f2 s = (some false, s')) :
    s'.destFlags = s.destFlags ∧ env.truepath f2 ≠ env.truepath f1 := by
  rw [samefile] at h
  dsimp only at h
  injection h with hsame hs
  refine ⟨hs ▸ rfl, fun heq => ?_⟩
  split_ifs at hsame
  rw [heq, beq_self_eq_true] at hsame
  cases hsame

/-- No source is the destination. -/
theorem checkSources_ne {env : Env} {srcFile rDest : Str} : ∀ {src : List Source} {s s' : CopyState},
    checkSources env srcFile rDest src s = (true, s') →
    s'.destFlags = s.destFlags ∧
      ∀ h ∈ src, ∃ name, destOf env h.fnam srcFile = some name ∧ name ≠ env.truepath rDest
  | [], s, s', hok => by
    cases hok
    exact ⟨rfl, fun _ hmem => absurd hmem List.not_mem_nil⟩
  | h :: app, s, s', hok => by
    rw [checkSources] at hok
    cases hfill : env.fillFnam h.fnam srcFile with
    | none =>
      rw [hfill] at hok
      cases hok
    | some rSrc =>
      rw [hfill] at hok
      dsimp only at hok
      split at hok
      · next s₁ hsame =>
        obtain ⟨hflags, hne⟩ := samefile_false hsame
        obtain ⟨hflags', hrest⟩ := checkSources_ne hok
        refine ⟨hflags'.trans hflags, fun b hb => ?_⟩
        rcases List.mem_cons.1 hb with rfl | hb
        · exact ⟨env.truepath rSrc, by rw [destOf, hfill, Option.map_some], hne⟩
        · exact hrest b hb
      · cases hok

theorem setFlags_eq (src : List Source) (s : CopyState) :
    setFlags src s = (modes src, { s with destFlags := destMode src s.destFlags }) := by
  rw [setFlags, modes, destMode]
  by_cases hlen : 1 < src.length
  · rw [if_pos hlen, if_pos hlen]
    have hnone : (!s.destFlags.ascii && !s.destFlags.binary) = true ↔
        s.destFlags.ascii = false ∧ s.destFlags.binary = false := by
      rw [Bool.and_eq_true, Bool.not_eq_true', Bool.not_eq_true']
    by_cases hm : s.destFlags.ascii = false ∧ s.destFlags.binary = false
    · rw [if_pos (hnone.2 hm), if_pos ⟨hlen, hm⟩]
    · rw [if_neg (mt hnone.1 hm), if_neg fun h => hm h.2]
  · rw [if_neg hlen, if_neg hlen, if_neg fun h => hlen h.1]

/-- What is known of the sources and the destination once COPY goes on with a file. -/
theorem prepare_go {env : Env} {dst srcFile rDest : Str} {src src' : List Source} {s s' : CopyState}
    (h : prepare env dst srcFile src s = (some rDest, .go, src', s')) :
    src' = modes src ∧ s'.destFlags = destMode src s.destFlags ∧
      ∀ b ∈ src, ∃ name, destOf env b.fnam srcFile = some name ∧ name ≠ env.truepath rDest := by
  rw [prepare] at h
  cases hfill : env.fillFnam dst srcFile with
  | none =>
    rw [hfill] at h
    cases h
  | some r =>
    rw [hfill] at h
    dsimp only at h
    split at h
    · cases h
    · next s₁ hcheck =>
      obtain ⟨hflags, hne⟩ := checkSources_ne hcheck
      rw [setFlags_eq] at h
      dsimp only at h
      have hconfirm := (confirm_untouched env srcFile r (modes src)
        { s₁ with destFlags := destMode src s₁.destFlags }).destFlags
      generalize confirm env srcFile r (modes src) _ = q at h hconfirm
      obtain ⟨p, s₂⟩ := q
      cases p with
      | go =>
        injection h with hr h
        injection h with hp h
        injection h with hsrc hs
        cases hr
        refine ⟨hsrc.symm, ?_, hne⟩
        rw [← hs, ← hflags]
        exact hconfirm
      | quit =>
        injection h with hr h
        injection h with hp h
        cases hp
      | skip =>
        injection h with hr h
        injection h with hp h
        cases hp

/-- All that is left to append is a single binary source. -/
def singleBinary : List Source → Bool
  | [b] => !b.flags.ascii
  | _ => false

theorem fnam_of_mem_defaultAscii {b : Source} : ∀ {src : List Source}, b ∈ defaultAscii src →
    ∃ b' ∈ src, b'.fnam = b.fnam
  | [], h => nomatch h
  | h :: app, hb => by
    rw [defaultAscii] at hb
    split at hb
    · rcases List.mem_cons.1 hb with rfl | hb
      · exact ⟨h, List.mem_cons_self, rfl⟩
      · obtain ⟨b', hb', heq⟩ := fnam_of_mem_defaultAscii hb
        exact ⟨b', List.mem_cons_of_mem h hb', heq⟩
    · exact ⟨b, hb, rfl⟩

/-- The flags do not change the names. -/
theorem fnam_of_mem_modes {src : List Source} {b : Source} (h : b ∈ modes src) : ∃ b' ∈ src, b'.fnam = b.fnam := by
  rw [modes] at h
  split at h
  · exact fnam_of_mem_defaultAscii h
  · exact ⟨b, h, rfl⟩

theorem Regular.modes {env : Env} {srcFile : Str} {src : List Source} (h : Regular env srcFile src) :
    Regular env srcFile (modes src) := fun b hb => by
  obtain ⟨b', hb', heq⟩ := fnam_of_mem_modes hb
  rw [← heq]
  exact h b' hb'

theorem length_defaultAscii : ∀ src : List Source, (defaultAscii src).length = src.length
  | [] => rfl
  | h :: app => by
    rw [defaultAscii]
    split
    · rw [List.length_cons, length_defaultAscii app, List.length_cons]
    · rfl

/-- A single binary source is copied into the place of what is there. -/
theorem isSome_replacement {env : Env} {srcFile : Str} {s : CopyState} {src : List Source}
    (hreg : Regular env srcFile src) (hnamed : ∀ b ∈ src, ∃ name, destOf env b.fnam srcFile = some name) :
    (replacement env srcFile s (modes src)).isSome = singleBinary src := by
  match src with
  | [] => rfl
  | b :: c :: rest =>
    have hlen : (modes (b :: c :: rest)).length ≠ 1 := by
      rw [modes, if_pos (by simp), length_defaultAscii]
      simp
    rw [replacement_of_length hlen]
    rfl
  | [b] =>
    obtain ⟨name, hname⟩ := hnamed b (List.mem_singleton_self b)
    have hdev := hreg b (List.mem_singleton_self b) name hname
    obtain ⟨rSrc, hfill, rfl⟩ := Option.map_eq_some_iff.1 hname
    have hone : modes [b] = [b] := rfl
    rw [hone, replacement, hfill]
    dsimp only
    rw [hdev, Bool.not_false, Bool.and_true, singleBinary]
    cases b.flags.ascii <;> rfl

/-- What is not a source does not count. -/
theorem concat_update {env : Env} {srcFile name : Str} {files : Str → Option (List UInt8)}
    (data : Option (List UInt8)) {src : List Source}
    (hne : ∀ b ∈ src, destOf env b.fnam srcFile ≠ some name) :
    concat env srcFile (Function.update files name data) src = concat env srcFile files src := by
  refine List.flatMap_congr fun b hb => ?_
  rw [counted, counted]
  cases hdest : destOf env b.fnam srcFile with
  | none => rfl
  | some other =>
    have hother : other ≠ name := fun heq => hne b hb (heq ▸ hdest)
    dsimp only
    rw [Function.update_of_ne hother]

/-- **What COPY makes of a file that is found, once it goes on with it.** -/
theorem copyFile_content {env : Env} {append : Bool} {dst srcFile rDest : Str} {src src' src'' : List Source}
    {s s₁ s' : CopyState} (hdest : env.isadev (env.truepath rDest) = false) (hreg : Regular env srcFile src)
    (hgo : prepare env dst srcFile src s = (some rDest, .go, src', s₁))
    (hok : copyFile env append dst srcFile src s = (some src'', s')) :
    s'.files (env.truepath rDest) = some
      ((if singleBinary src || !append then [] else (s.files (env.truepath rDest)).getD []) ++
        concat env srcFile s.files (modes src) ++ textEnd (destMode src s.destFlags)) ∧
      OnlyFile (env.truepath rDest) s s' := by
  have hfiles := prepare_files env dst srcFile src s
  obtain ⟨rfl, hflags, hne⟩ := prepare_go hgo
  have hnamed : ∀ b ∈ src, ∃ name, destOf env b.fnam srcFile = some name := fun b hb =>
    (hne b hb).imp fun _ h => h.1
  have hother : ∀ b ∈ modes src, destOf env b.fnam srcFile ≠ some (env.truepath rDest) := fun b hb heq => by
    obtain ⟨b', hb', hfnam⟩ := fnam_of_mem_modes hb
    obtain ⟨name, hname, hne⟩ := hne b' hb'
    rw [hfnam, heq] at hname
    exact hne (Option.some.inj hname).symm
  rw [hgo] at hfiles
  dsimp only at hfiles
  rw [copyFile, hgo] at hok
  dsimp only [openDest] at hok
  generalize env.truepath rDest = name at *
  cases append with
  | true =>
    rw [if_pos rfl] at hok
    have hopen : (s₁.openFile env name).2.files = s.files := hfiles
    have hopen' : (s₁.openFile env name).2.destFlags = destMode src s.destFlags := hflags
    generalize s₁.openFile env name = q at hok hopen hopen'
    obtain ⟨ok, s₂⟩ := q
    cases ok with
    | false => cases hok
    | true =>
      dsimp only at hok hopen hopen'
      rw [hdest] at hok
      have hfill := fillDest_concat hreg.modes ⟨rfl, rfl, rfl⟩ hok
      rw [isSome_replacement hreg hnamed, hopen, hopen'] at hfill
      rw [Bool.not_true, Bool.or_false]
      have honly := fillDest_onlyFile env srcFile name (modes src) ⟨(s₂.files name).getD [],
        ((s₂.files name).getD []).length, false⟩ s₂
      rw [hok] at honly
      exact ⟨hfill, fun other h => (honly other h).trans (congrFun hopen other)⟩
  | false =>
    rw [if_neg Bool.false_ne_true] at hok
    cases hopen : (ask true s₁.opens).1 with
    | false => rw [hopen] at hok; cases hok
    | true =>
      rw [hopen, hdest] at hok
      simp only [Bool.not_true, Bool.false_eq_true, if_false] at hok
      have hfill := fillDest_concat hreg.modes ⟨rfl, rfl, rfl⟩ hok
      have honly := fillDest_onlyFile env srcFile name (modes src) ⟨[], 0, false⟩
        (CopyState.setFile { s₁ with opens := (ask true s₁.opens).2 } name (some []))
      rw [hok] at honly
      rw [setFile_files, concat_update _ hother, ite_self] at hfill
      dsimp only [CopyState.setFile] at hfill
      rw [hfiles, hflags] at hfill
      rw [Bool.not_false, Bool.or_true, if_pos rfl]
      refine ⟨hfill, fun other h => ?_⟩
      rw [honly other h, setFile_files, Function.update_of_ne h]
      exact congrFun hfiles other

/-! ## A command with one destination -/

/-- The destination is its own first source. -/
def appends (env : Env) (dst : Str) (h : Source) : Bool := env.truepath h.fnam == env.truepath dst

/-- The sources that are copied. -/
def copied (env : Env) (dst : Str) (h : Source) (app : List Source) : List Source :=
  if appends env dst h then app else h :: app

/-- What stands in front of what is copied. -/
def front (env : Env) (dst : Str) (h : Source) (name : Str) (s : CopyState) : List UInt8 :=
  if appends env dst h then (s.files name).getD [] else []

/-- The user is asked whether the destination may be overwritten, and says no. -/
def Declined (env : Env) (dst srcFile : Str) (src : List Source) (s : CopyState) : Prop :=
  (prepare env dst srcFile src { s with mems := (ask true s.mems).2 }).2.1 = .skip

instance (env : Env) (dst srcFile : Str) (src : List Source) (s : CopyState) :
    Decidable (Declined env dst srcFile src s) := inferInstanceAs (Decidable (_ = _))

theorem copyFiles_some {env : Env} {dst srcFile : Str} {h : Source} {app : List Source} {s : CopyState}
    (hone : matching env h.fnam = [srcFile]) (hok : (copyFiles env dst h app s).1 = true) :
    ∃ src', copyFile env (appends env dst h) dst srcFile (copied env dst h app)
      { s with mems := (ask true s.mems).2 } = (some src', (copyFiles env dst h app s).2) := by
  have hcopy : ∀ (append : Bool) (src : List Source) (t : CopyState),
      (copy env append dst h.fnam src t).1 = true →
      ∃ src', copyFile env append dst srcFile src t = (some src', (copy env append dst h.fnam src t).2) :=
    fun append src t hok => by
    rw [copy, hone] at hok ⊢
    dsimp only [copyAll] at hok ⊢
    generalize copyFile env append dst srcFile src t = q at hok ⊢
    obtain ⟨done, t'⟩ := q
    cases done with
    | none => cases hok
    | some src' => exact ⟨src', rfl⟩
  rw [copyFiles, samefile] at hok ⊢
  dsimp only at hok ⊢
  cases hmem : (ask true s.mems).1 with
  | false => rw [hmem] at hok; cases hok
  | true =>
    rw [hmem, if_pos rfl] at hok
    rw [if_pos rfl, copied, appends]
    cases happ : env.truepath h.fnam == env.truepath dst with
    | false =>
      rw [happ] at hok
      rw [if_neg Bool.false_ne_true]
      exact hcopy false (h :: app) _ hok
    | true =>
      rw [happ] at hok
      rw [if_pos rfl]
      dsimp only at hok ⊢
      split at hok
      · cases hok
      · rw [if_neg ‹_›]
        exact hcopy true app _ hok

/-- **Where COPY succeeds for a destination, that is the concatenation of its sources, behind its
old content if it is the first of them, unless a single binary source takes the place of old
content.**  No other file is changed, and none at all if the user does not let the destination be
overwritten. -/
theorem copyFiles_content_iff (env : Env) (dst : Str) (h : Source) (app : List Source) (s : CopyState)
    {srcFile name : Str} (hone : matching env h.fnam = [srcFile]) (hname : destOf env dst srcFile = some name)
    (hdest : env.isadev name = false) (hreg : Regular env srcFile (h :: app))
    (hok : (copyFiles env dst h app s).1 = true) :
    OnlyFile name s (copyFiles env dst h app s).2 ∧
      ((Declined env dst srcFile (copied env dst h app) s ∧ (copyFiles env dst h app s).2.files = s.files) ∨
        (¬ Declined env dst srcFile (copied env dst h app) s ∧
          ((copyFiles env dst h app s).2.files name = some (front env dst h name s ++
              concat env srcFile s.files (modes (copied env dst h app)) ++
              textEnd (destMode (copied env dst h app) s.destFlags)) ↔
            ¬ (appends env dst h = true ∧ singleBinary app = true ∧ (s.files name).getD [] ≠ [])))) := by
  obtain ⟨src', hcopy⟩ := copyFiles_some hone hok
  have hregular : Regular env srcFile (copied env dst h app) := by
    rw [copied]
    split
    · exact fun b hb => hreg b (List.mem_cons_of_mem h hb)
    · exact hreg
  have hfiles := prepare_files env dst srcFile (copied env dst h app) { s with mems := (ask true s.mems).2 }
  rw [Declined]
  cases hprep : prepare env dst srcFile (copied env dst h app) { s with mems := (ask true s.mems).2 } with
  | mk rDest r =>
    obtain ⟨p, src₁, s₁⟩ := r
    rw [hprep] at hfiles
    cases rDest with
    | none =>
      rw [copyFile, hprep] at hcopy
      cases hcopy
    | some rDest =>
    cases p with
    | quit =>
      rw [copyFile, hprep] at hcopy
      cases hcopy
    | skip =>
      rw [copyFile, hprep] at hcopy
      injection hcopy with _ hs
      rw [← hs]
      exact ⟨fun other _ => congrFun hfiles other, .inl ⟨rfl, hfiles⟩⟩
    | go =>
      have hdest' : env.truepath rDest = name := by
        rw [destOf, prepare_dest hprep, Option.map_some] at hname
        exact Option.some.inj hname
      obtain ⟨hcontent, honly⟩ := copyFile_content (by rw [hdest']; exact hdest) hregular hprep hcopy
      rw [hdest'] at hcontent honly
      refine ⟨honly, .inr ⟨fun h => (by cases h), ?_⟩⟩
      rw [hcontent, front, copied]
      have hold : ({ s with mems := (ask true s.mems).2 } : CopyState).files = s.files := rfl
      cases appends env dst h with
      | false =>
        rw [Bool.not_false, Bool.or_true, if_pos rfl, if_neg Bool.false_ne_true]
        exact iff_of_true rfl fun hand => Bool.false_ne_true hand.1
      | true =>
        rw [Bool.not_true, Bool.or_false, if_pos rfl, if_pos rfl]
        cases singleBinary app with
        | false =>
          rw [if_neg Bool.false_ne_true]
          exact iff_of_true rfl fun hand => Bool.false_ne_true hand.2.1
        | true =>
          rw [if_pos rfl, Option.some.injEq, List.append_cancel_right_eq, List.append_cancel_right_eq]
          simp only [true_and, not_not]
          exact eq_comm

/-- `COPY A/A+B C` with `A` = 1 2 and `B` = 3 gives 1 2 3 and a Ctrl-Z. -/
theorem copyFiles_content_iff_two :
    OnlyFile [67] plainState (copyFiles plainEnv [67] ⟨[65], ⟨true, false⟩⟩ [⟨[66], ⟨false, false⟩⟩] plainState).2 ∧
      (copyFiles plainEnv [67] ⟨[65], ⟨true, false⟩⟩ [⟨[66], ⟨false, false⟩⟩] plainState).2.files [67] =
        some [1, 2, 3, 26] := by
  obtain ⟨honly, hskip | ⟨-, hcontent⟩⟩ := @copyFiles_content_iff plainEnv [67] ⟨[65], ⟨true, false⟩⟩
    [⟨[66], ⟨false, false⟩⟩] plainState [65] [67] (by decide) (by decide) (by decide)
    (fun _ _ _ _ => rfl) (by decide +kernel)
  · exact absurd hskip.1 (by decide +kernel)
  · exact ⟨honly, (hcontent.2 (by decide)).trans (by decide)⟩

/-- `COPY A+B A` with `A` = 1 2 and `B` = 3 leaves 3 in `A`. -/
theorem append_replaces :
    (copyFiles plainEnv [65] ⟨[65], ⟨false, false⟩⟩ [⟨[66], ⟨false, false⟩⟩] plainState).1 = true ∧
      (copyFiles plainEnv [65] ⟨[65], ⟨false, false⟩⟩ [⟨[66], ⟨false, false⟩⟩] plainState).2.files [65] =
        some [3] := by
  decide +kernel

end Shell
end BurdahDos
