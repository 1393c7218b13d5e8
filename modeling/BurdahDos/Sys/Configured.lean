import BurdahDos.Sys.Config
import Mathlib

/-!
# What `SYS CONFIG` changes in a kernel file

Every option is written into the structure, whatever `ConfigSize` is; only what is displayed depends
on it.  In a kernel whose section is shorter, a byte behind the section is changed.
-/

set_option autoImplicit false

namespace BurdahDos
namespace Sys

/-! ## What the options are -/

/-- The options behind the name of the kernel file. -/
def optionsOf (args : List Str) : List Str := (kernelAndOptions args).2

/-- The last text that is given for a setting. -/
def lastOf (o : Setting) (ps : List (Setting × Str)) : Option Str :=
  ((ps.filter fun p => p.1 = o).getLast?).map Prod.snd

/-- The last text that the options give for a setting. -/
def lastGiven (o : Setting) (options : List Str) : Option Str := lastOf o (options.filterMap named)

/-- There is a switch, or an option that is not known. -/
def Invalid (args : List Str) : Prop :=
  args.any isSwitch = true ∨ ∃ arg ∈ optionsOf args, named arg = none

/-- What the section says about its size. -/
def declared (kernel : KernelFile) : ℕ :=
  configSize ((kernel.bytes.drop 2).take sizeofKernelConfig)

/-- The kernel has a CONFIG section, and there is enough of it to read. -/
def HasSection (kernel : KernelFile) : Prop :=
  2 + sizeofKernelConfig ≤ kernel.bytes.length ∧ (kernel.bytes.drop 2).take 6 = configMark

/-- The field is within the section, that is, within what `ConfigSize` counts behind itself. -/
def Setting.Inside (o : Setting) (kernel : KernelFile) : Prop := o.field < 8 + declared kernel

/-- What `strtoul` or `strtol` reads for a setting. -/
def Setting.read (o : Setting) (value : Str) : ℤ := if o.signed then strtol value else strtoul value

/-- The number given can be read, or what is read instead ends in the same byte. -/
def Setting.Exact (o : Setting) (value : Str) : Prop :=
  if o.signed then
    (-2 ^ 31 ≤ given value ∧ given value < 2 ^ 31) ∨
      (2 ^ 31 ≤ given value ∧ given value % 256 = 255) ∨
      (given value < -2 ^ 31 ∧ given value % 256 = 0)
  else (given value).natAbs < 2 ^ 32 ∨ given value % 256 = 255

/-- What is to be changed in a kernel file, and what not. -/
structure Framed (args : List Str) (kernel : KernelFile) (after : Str) : Prop where
  length : after.length = kernel.bytes.length
  /-- Only settings that are given and that are within the section change, and a wrong size. -/
  changed : ∀ k, after[k]? ≠ kernel.bytes[k]? →
    (∃ o value, lastGiven o (optionsOf args) = some value ∧ o.Inside kernel ∧ k = 2 + o.field ∧
      after[k]? = some (byteOf (given value))) ∨
    (wrongSize (declared kernel) = true ∧
      (k = 8 ∧ after[k]? = some 6 ∨ k = 9 ∧ after[k]? = some 0))
  invalid : Invalid args → after = kernel.bytes
  /-- If the file can be changed, what was given last is in it. -/
  last : ¬ Invalid args → kernel.readonly = false → HasSection kernel →
    ∀ o value, lastGiven o (optionsOf args) = some value → o.Inside kernel →
      after[2 + o.field]? = some (byteOf (given value))

/-- Nothing is written, or each setting that is given is within the section and can be read, or is
behind the section and has its value already. -/
def Fitting (args : List Str) (kernel : KernelFile) : Prop :=
  Invalid args ∨ kernel.readonly = true ∨ ¬ HasSection kernel ∨
    ∀ o value, lastGiven o (optionsOf args) = some value →
      (o.Inside kernel ∧ o.Exact value) ∨
        (¬ o.Inside kernel ∧ kernel.bytes[2 + o.field]? = some (byteOf (o.read value)))

/-! ## Bytes -/

theorem byteOf_inj {v w : ℤ} : byteOf v = byteOf w ↔ v % 256 = w % 256 := by
  constructor
  · intro h
    have h' := congrArg UInt8.toNat h
    simp only [byteOf, UInt8.toNat_ofNat'] at h'
    omega
  · intro h
    rw [byteOf, h, byteOf]

/-- Reading a number loses nothing modulo 256 if and only if it can be read. -/
theorem Setting.exact_iff (o : Setting) (value : Str) :
    byteOf (o.read value) = byteOf (given value) ↔ o.Exact value := by
  rw [byteOf_inj, Setting.read, Setting.Exact]
  by_cases hs : o.signed = true
  · rw [if_pos hs, if_pos hs, strtol]
    split
    · omega
    · split <;> omega
  · rw [if_neg hs, if_neg hs, strtoul]
    split <;> omega

theorem Setting.field_inj {o o' : Setting} (h : o.field = o'.field) : o = o' := by
  cases o <;> cases o' <;> first | rfl | exact absurd h (by decide)

theorem Setting.field_range (o : Setting) : 8 ≤ o.field ∧ o.field < sizeofKernelConfig := by
  cases o <;> decide

/-! ## One option -/

theorem Config.store_cfg (c : Config) (field : ℕ) (v : UInt8) :
    (c.store field v).cfg = c.cfg.set field v := by
  rw [Config.store]
  split
  · rename_i h
    apply List.ext_getElem?
    intro k
    rw [List.getElem?_set]
    by_cases hk : field = k
    · subst hk
      rw [if_pos rfl, h]
      by_cases hl : field < c.cfg.length
      · rw [if_pos hl, List.getElem?_eq_getElem hl, List.getD_eq_getElem _ _ hl]
      · rw [if_neg hl, List.getElem?_eq_none (Nat.le_of_not_lt hl)]
    · rw [if_neg hk]
  · rfl

theorem Config.store_updates {c : Config} {field : ℕ} {v : UInt8}
    (h : (c.store field v).updates = false) : c.store field v = c := by
  rw [Config.store] at h ⊢
  by_cases hv : v = c.cfg.getD field 0
  · rw [if_pos hv]
  · rw [if_neg hv] at h
    exact absurd h (by simp)

theorem Setting.set_eq (o : Setting) (value : Str) (c : Config) :
    o.set value c = c.store o.field (byteOf (o.read value)) := by
  rw [Setting.set, Setting.read, setSByteOption, setByteOption]
  split <;> rfl

/-! ## All options -/

/-- The settings are stored one after the other. -/
def sets (ps : List (Setting × Str)) (c : Config) : Config :=
  ps.foldl (fun c p => p.1.set p.2 c) c

/-- **A run over the options** stores all of them, or meets one that it does not know. -/
theorem foldlM_option (options : List Str) (c : Config) :
    (options.foldlM option c = none ∧ ∃ arg ∈ options, named arg = none) ∨
      (options.foldlM option c = some (sets (options.filterMap named) c) ∧
        ∀ arg ∈ options, named arg ≠ none) := by
  induction options generalizing c with
  | nil => exact .inr ⟨rfl, by simp⟩
  | cons arg options ih =>
    rw [List.foldlM_cons]
    cases hn : named arg with
    | none =>
      refine .inl ⟨?_, arg, List.mem_cons_self, hn⟩
      rw [option, hn]
      rfl
    | some p =>
      have hstep : option c arg = some (p.1.set p.2 c) := by rw [option, hn]
      rw [hstep, List.filterMap_cons_some hn]
      rcases ih (p.1.set p.2 c) with ⟨hrun, a, ha, hna⟩ | ⟨hrun, hall⟩
      · exact .inl ⟨hrun, a, List.mem_cons_of_mem _ ha, hna⟩
      · refine .inr ⟨hrun, ?_⟩
        intro a ha
        rcases List.mem_cons.1 ha with rfl | ha
        · rw [hn]
          exact Option.some_ne_none p
        · exact hall a ha

theorem sets_length (ps : List (Setting × Str)) (c : Config) :
    (sets ps c).cfg.length = c.cfg.length := by
  induction ps generalizing c with
  | nil => rfl
  | cons p ps ih =>
    rw [sets, List.foldl_cons, ← sets, ih, Setting.set_eq, Config.store_cfg, List.length_set]

theorem sets_concat (ps : List (Setting × Str)) (p : Setting × Str) (c : Config) :
    sets (ps ++ [p]) c = p.1.set p.2 (sets ps c) := by
  rw [sets, List.foldl_concat, ← sets]

theorem lastOf_concat (o : Setting) (ps : List (Setting × Str)) (p : Setting × Str) :
    lastOf o (ps ++ [p]) = if p.1 = o then some p.2 else lastOf o ps := by
  rw [lastOf, List.filter_append]
  by_cases h : p.1 = o
  · simp [h]
  · simp [h, lastOf]

/-- **A setting** has what was given last for it, if anything was. -/
theorem sets_field (ps : List (Setting × Str)) (c : Config) (o : Setting)
    (hlen : c.cfg.length = sizeofKernelConfig) :
    (sets ps c).cfg[o.field]? =
      match lastOf o ps with
      | some value => some (byteOf (o.read value))
      | none => c.cfg[o.field]? := by
  induction ps using List.reverseRecOn with
  | nil => rfl
  | append_singleton ps p ih =>
    have hlt : o.field < (sets ps c).cfg.length := by
      rw [sets_length, hlen]
      exact o.field_range.2
    rw [sets_concat, Setting.set_eq, Config.store_cfg, lastOf_concat, List.getElem?_set]
    by_cases hp : p.1 = o
    · rw [if_pos hp, hp, if_pos rfl, if_pos hlt]
    · rw [if_neg hp, if_neg fun h => hp (Setting.field_inj h), ih]

/-- Nothing else in the structure changes. -/
theorem sets_other (ps : List (Setting × Str)) (c : Config) (k : ℕ)
    (h : ∀ o : Setting, o.field ≠ k) : (sets ps c).cfg[k]? = c.cfg[k]? := by
  induction ps generalizing c with
  | nil => rfl
  | cons p ps ih =>
    rw [sets, List.foldl_cons, ← sets, ih, Setting.set_eq, Config.store_cfg,
      List.getElem?_set_ne (h p.1)]

/-- Without a change the flag stays down. -/
theorem sets_updates {ps : List (Setting × Str)} {c : Config}
    (h : (sets ps c).updates = false) : sets ps c = c := by
  induction ps using List.reverseRecOn with
  | nil => rfl
  | append_singleton ps p ih =>
    rw [sets_concat, Setting.set_eq] at h ⊢
    have hstep := Config.store_updates h
    rw [hstep] at h ⊢
    exact ih h

/-! ## The file -/

theorem write_get {kfile cfg : Str} (hfile : 2 + sizeofKernelConfig ≤ kfile.length)
    (hcfg : cfg.length = sizeofKernelConfig) (k : ℕ) :
    (writeConfigSettings kfile cfg)[k]? =
      if 2 ≤ k ∧ k < 2 + sizeofKernelConfig then cfg[k - 2]? else kfile[k]? := by
  have htwo : (kfile.take 2).length = 2 := by
    rw [List.length_take]
    omega
  rw [writeConfigSettings, List.append_assoc, List.getElem?_append, htwo]
  by_cases h2 : k < 2
  · rw [if_pos h2, if_neg (by omega), List.getElem?_take_of_lt h2]
  · rw [if_neg h2, List.getElem?_append, hcfg]
    by_cases h3 : k - 2 < sizeofKernelConfig
    · rw [if_pos h3, if_pos (by omega)]
    · rw [if_neg h3, if_neg (by omega), List.getElem?_drop]
      congr 1
      omega

/-- What is read of a kernel with a section is what is there, but for a wrong size. -/
theorem read_section {kernel : KernelFile} (h : HasSection kernel) :
    ∃ cfg, readConfigSettings kernel.bytes = some cfg ∧ cfg.length = sizeofKernelConfig ∧
      ∀ k, k < sizeofKernelConfig → cfg[k]? = kernel.bytes[2 + k]? ∨
        (wrongSize (declared kernel) = true ∧
          (k = 6 ∧ cfg[k]? = some 6 ∨ k = 7 ∧ cfg[k]? = some 0)) := by
  have hlen : ((kernel.bytes.drop 2).take sizeofKernelConfig).length = sizeofKernelConfig := by
    rw [List.length_take, List.length_drop]
    have := h.1
    omega
  have hmark : ((kernel.bytes.drop 2).take sizeofKernelConfig).take 6 = configMark := by
    rw [List.take_take]
    exact h.2
  have hget : ∀ k, k < sizeofKernelConfig →
      ((kernel.bytes.drop 2).take sizeofKernelConfig)[k]? = kernel.bytes[2 + k]? := by
    intro k hk
    rw [List.getElem?_take_of_lt hk, List.getElem?_drop]
  have hsize : configSize ((kernel.bytes.drop 2).take sizeofKernelConfig) = declared kernel := rfl
  rw [readConfigSettings, if_neg (by rw [hlen]; simp), if_neg (by rw [hmark]; simp), hsize]
  refine ⟨_, rfl, ?_, ?_⟩
  · split
    · rw [List.length_set, List.length_set, hlen]
    · exact hlen
  · intro k hk
    by_cases hw : wrongSize (declared kernel) = true
    · rw [if_pos hw]
      by_cases h7 : k = 7
      · refine .inr ⟨hw, .inr ⟨h7, ?_⟩⟩
        rw [h7, List.getElem?_set_self]
        rw [List.length_set, hlen]
        decide
      · rw [List.getElem?_set_ne (Ne.symm h7)]
        by_cases h6 : k = 6
        · refine .inr ⟨hw, .inl ⟨h6, ?_⟩⟩
          rw [h6, List.getElem?_set_self]
          rw [hlen]
          decide
        · rw [List.getElem?_set_ne (Ne.symm h6)]
          exact .inl (hget k hk)
    · rw [if_neg hw]
      exact .inl (hget k hk)

theorem read_none {kernel : KernelFile} (h : ¬ HasSection kernel) :
    readConfigSettings kernel.bytes = none := by
  rw [readConfigSettings]
  by_cases hlen : ((kernel.bytes.drop 2).take sizeofKernelConfig).length ≠ sizeofKernelConfig
  · rw [if_pos hlen]
  · rw [if_neg hlen, if_pos]
    intro hmark
    rw [List.take_take] at hmark
    rw [List.length_take, List.length_drop] at hlen
    refine h ⟨?_, hmark⟩
    have : sizeofKernelConfig = 23 := rfl
    omega

/-- The section is not written if there is none, if it cannot be, or if an option is invalid. -/
theorem configMain_unchanged {args : List Str} {kernel : KernelFile}
    (h : Invalid args ∨ kernel.readonly = true ∨ ¬ HasSection kernel) :
    fdKrnConfigMain args kernel = kernel.bytes := by
  rw [fdKrnConfigMain]
  split
  · rfl
  · rename_i hswitch
    split
    · rfl
    · rename_i cfg hread
      rcases foldlM_option (kernelAndOptions args).2 ⟨cfg, false⟩ with ⟨hrun, -⟩ | ⟨hrun, hall⟩
      · rw [hrun]
      · rw [hrun]
        rcases h with (hs | ⟨arg, harg, hnone⟩) | hro | hsec
        · exact absurd hs hswitch
        · exact absurd hnone (hall arg harg)
        · simp only [hro, Bool.not_true, Bool.and_false]
          rfl
        · rw [read_none hsec] at hread
          exact absurd hread (by simp)

/-- Otherwise the settings are stored in what was read, and that is written if it changed. -/
theorem configMain_run {args : List Str} {kernel : KernelFile} (hvalid : ¬ Invalid args)
    (hro : kernel.readonly = false) {cfg : Str} (hread : readConfigSettings kernel.bytes = some cfg)
    {c : Config} (hc : c = sets ((optionsOf args).filterMap named) ⟨cfg, false⟩) :
    fdKrnConfigMain args kernel = writeConfigSettings kernel.bytes c.cfg ∨
      (fdKrnConfigMain args kernel = kernel.bytes ∧ c.cfg = cfg) := by
  have hswitch : ¬ args.any isSwitch = true := fun hs => hvalid (.inl hs)
  rw [fdKrnConfigMain, if_neg hswitch, hread]
  rcases foldlM_option (optionsOf args) ⟨cfg, false⟩ with ⟨-, hbad⟩ | ⟨hrun, -⟩
  · exact absurd (.inr hbad) hvalid
  · rw [← hc] at hrun
    rw [optionsOf] at hrun
    simp only [hrun, hro, Bool.not_false, Bool.and_true]
    by_cases hu : c.updates = true
    · rw [if_pos hu]
      exact .inl rfl
    · rw [if_neg hu]
      refine .inr ⟨rfl, ?_⟩
      rw [hc] at hu ⊢
      rw [sets_updates (by simpa using hu)]

/-- **What is in the file after a run that can write it.**  Every setting that is given has the byte
that was read for it, within the section or not; of the rest only a wrong size changes. -/
theorem configMain_bytes {args : List Str} {kernel : KernelFile} (hvalid : ¬ Invalid args)
    (hro : kernel.readonly = false) (hsec : HasSection kernel) :
    (fdKrnConfigMain args kernel).length = kernel.bytes.length ∧
    (∀ o value, lastGiven o (optionsOf args) = some value →
      (fdKrnConfigMain args kernel)[2 + o.field]? = some (byteOf (o.read value))) ∧
    (∀ k, (fdKrnConfigMain args kernel)[k]? ≠ kernel.bytes[k]? →
      (∃ o value, lastGiven o (optionsOf args) = some value ∧ k = 2 + o.field) ∨
      (wrongSize (declared kernel) = true ∧
        (k = 8 ∧ (fdKrnConfigMain args kernel)[k]? = some 6 ∨
          k = 9 ∧ (fdKrnConfigMain args kernel)[k]? = some 0))) := by
  obtain ⟨cfg, hread, hlen, hcfg⟩ := read_section hsec
  generalize hc : sets ((optionsOf args).filterMap named) ⟨cfg, false⟩ = c
  have hclen : c.cfg.length = sizeofKernelConfig := by rw [← hc, sets_length, hlen]
  have hwrite := write_get hsec.1 hclen
  have hfields : ∀ o : Setting, c.cfg[o.field]? =
      match lastGiven o (optionsOf args) with
      | some value => some (byteOf (o.read value))
      | none => cfg[o.field]? := by
    intro o
    rw [← hc]
    exact sets_field _ _ o hlen
  have hfile : ∀ o : Setting, cfg[o.field]? = kernel.bytes[2 + o.field]? := by
    intro o
    have hr := o.field_range
    rcases hcfg o.field hr.2 with h | ⟨-, ⟨h, -⟩ | ⟨h, -⟩⟩
    · exact h
    all_goals omega
  rcases configMain_run hvalid hro hread hc.symm with hafter | ⟨hafter, hsame⟩
  · rw [hafter]
    refine ⟨?_, ?_, ?_⟩
    · rw [writeConfigSettings, List.length_append, List.length_append, List.length_take,
        List.length_drop, hclen]
      have := hsec.1
      omega
    · intro o value hv
      have hr := o.field_range
      rw [hwrite, if_pos (by omega), Nat.add_sub_cancel_left, hfields, hv]
    · intro k hk
      rw [hwrite] at hk ⊢
      by_cases hin : 2 ≤ k ∧ k < 2 + sizeofKernelConfig
      · rw [if_pos hin] at hk ⊢
        obtain ⟨j, rfl⟩ : ∃ j, k = 2 + j := ⟨k - 2, by omega⟩
        rw [Nat.add_sub_cancel_left] at hk ⊢
        by_cases hset : ∃ o : Setting, o.field = j
        · obtain ⟨o, rfl⟩ := hset
          rw [hfields] at hk
          cases hv : lastGiven o (optionsOf args) with
          | none =>
            rw [hv] at hk
            exact absurd (hfile o) hk
          | some value => exact .inl ⟨o, value, hv, rfl⟩
        · have hother : c.cfg[j]? = cfg[j]? := by
            rw [← hc]
            exact sets_other _ _ j fun o ho => hset ⟨o, ho⟩
          rw [hother] at hk ⊢
          rcases hcfg j (by omega) with h | ⟨hw, ⟨h, h'⟩ | ⟨h, h'⟩⟩
          · exact absurd h hk
          · exact .inr ⟨hw, .inl ⟨by omega, h'⟩⟩
          · exact .inr ⟨hw, .inr ⟨by omega, h'⟩⟩
      · rw [if_neg hin] at hk
        exact absurd rfl hk
  · rw [hafter]
    refine ⟨rfl, ?_, fun k hk => absurd rfl hk⟩
    intro o value hv
    rw [← hfile, ← hsame, hfields, hv]

/-! ## The result -/

/-- **Only what was asked for changes in the kernel file if and only if the options fit its
section**: nothing is written at all, or every setting that is given is within what the section
declares and has a number that can be read, or has its value there already. -/
theorem configMain_iff (args : List Str) (kernel : KernelFile) :
    Framed args kernel (fdKrnConfigMain args kernel) ↔ Fitting args kernel := by
  by_cases hskip : Invalid args ∨ kernel.readonly = true ∨ ¬ HasSection kernel
  · refine iff_of_true ?_ ?_
    · rw [configMain_unchanged hskip]
      refine ⟨rfl, fun k hk => absurd rfl hk, fun _ => rfl, ?_⟩
      intro hvalid hro hsec
      rcases hskip with h | h | h
      · exact absurd h hvalid
      · exact absurd (hro.symm.trans h) (by simp)
      · exact absurd hsec h
    · rcases hskip with h | h | h
      · exact .inl h
      · exact .inr (.inl h)
      · exact .inr (.inr (.inl h))
  · have hvalid : ¬ Invalid args := fun h => hskip (.inl h)
    have hro : kernel.readonly = false := by
      cases hr : kernel.readonly with
      | false => rfl
      | true => exact absurd (.inr (.inl hr)) hskip
    have hsec : HasSection kernel := by
      by_contra h
      exact hskip (.inr (.inr h))
    obtain ⟨hlen, hset, hrest⟩ := configMain_bytes hvalid hro hsec
    constructor
    · intro hframed
      refine .inr (.inr (.inr ?_))
      intro o value hv
      by_cases hin : o.Inside kernel
      · refine .inl ⟨hin, ?_⟩
        have hlast := hframed.last hvalid hro hsec o value hv hin
        rw [hset o value hv, Option.some_inj] at hlast
        exact (o.exact_iff value).1 hlast
      · refine .inr ⟨hin, ?_⟩
        rw [← hset o value hv]
        by_contra hne
        have hr := o.field_range
        rcases hframed.changed (2 + o.field) (Ne.symm hne) with
          ⟨o', value', -, hin', hk, -⟩ | ⟨-, ⟨hk, -⟩ | ⟨hk, -⟩⟩
        · rw [Setting.field_inj (Nat.add_left_cancel hk)] at hin
          exact hin hin'
        all_goals omega
    · intro hfit
      have hfit' : ∀ o value, lastGiven o (optionsOf args) = some value →
          (o.Inside kernel ∧ o.Exact value) ∨
            (¬ o.Inside kernel ∧
              kernel.bytes[2 + o.field]? = some (byteOf (o.read value))) := by
        rcases hfit with h | h | h | h
        · exact absurd (.inl h) hskip
        · exact absurd (.inr (.inl h)) hskip
        · exact absurd (.inr (.inr h)) hskip
        · exact h
      have hgiven : ∀ o value, lastGiven o (optionsOf args) = some value → o.Inside kernel →
          (fdKrnConfigMain args kernel)[2 + o.field]? = some (byteOf (given value)) := by
        intro o value hv hin
        rcases hfit' o value hv with ⟨-, hexact⟩ | ⟨hout, -⟩
        · rw [hset o value hv, (o.exact_iff value).2 hexact]
        · exact absurd hin hout
      refine ⟨hlen, ?_, fun h => absurd h hvalid, fun _ _ _ => hgiven⟩
      intro k hk
      rcases hrest k hk with ⟨o, value, hv, rfl⟩ | hsize
      · rcases hfit' o value hv with ⟨hin, -⟩ | ⟨-, hsame⟩
        · exact .inl ⟨o, value, hv, hin, rfl, hgiven o value hv hin⟩
        · rw [hset o value hv, hsame] at hk
          exact absurd rfl hk
      · exact .inr hsize

/-- A kernel file with a section of six bytes, and two bytes behind the structure. -/
def olderKernel : KernelFile where
  readonly := false
  bytes := [0xeb, 0x1c] ++ configMark ++ [6, 0] ++ List.replicate 17 0x90

/-- "CheckDebugger=1" -/
def checkDebuggerOption : Str :=
  [67, 104, 101, 99, 107, 68, 101, 98, 117, 103, 103, 101, 114, 61, 49]

/-- A byte of the code behind a section of six bytes is changed. -/
theorem behind_section_changed :
    ¬ Framed [checkDebuggerOption] olderKernel
      (fdKrnConfigMain [checkDebuggerOption] olderKernel) := by
  intro h
  have hne : (fdKrnConfigMain [checkDebuggerOption] olderKernel)[22]? ≠ olderKernel.bytes[22]? := by
    decide
  rcases h.changed 22 hne with ⟨o, value, -, hin, hk, -⟩ | ⟨-, ⟨hk, -⟩ | ⟨hk, -⟩⟩
  · have hsize : declared olderKernel = 6 := by decide
    rw [Setting.Inside, hsize] at hin
    omega
  all_goals exact absurd hk (by decide)

end Sys
end BurdahDos
