import BurdahDos.Path.Canonical
import Mathlib

/-!
# Names on a drive

What `truename` makes of a name behind a drive letter, without a path, on a drive of any kind.  It
ends in that name in upper case, behind a backslash: `truename_component`.  Whatever comes in front
of it is the business of the drive: its current directory, what it is substituted for, or what
another one is joined to.
-/

set_option autoImplicit false

namespace BurdahDos
namespace Path

/-- The mode of a call that asks for nothing special. -/
def mode0 : Mode := ⟨false, false, false⟩

/-- A name without a path. -/
structure Bare (s : Str) : Prop where
  ne_nil : s ≠ []
  not_sep : ∀ c ∈ s, isSep c = false ∧ c ≠ colon
  lt : s.length < maxCdsPath

/-- The result is that of a device which is not on a network drive. -/
def DeviceOnly (result : ℕ) : Prop := result &&& (isNetworkBit ||| isDeviceBit) = isDeviceBit

/-- The path ends in a name behind a backslash, if it does not end in a backslash. -/
def EndsIn (path t : Str) : Prop :=
  path.getLast? = some backslash ∨ ∃ r, 2 ≤ r.length ∧ path = r ++ backslash :: t

/-- How the component loop starts for a name without a path: behind the current directory of a
drive, or for a device just behind the letter. -/
structure Kernel.Starts (k : Kernel) (front : UInt8) (s : Str) (st : Start) : Prop where
  src : st.src = s
  up : st.k.upFChar = k.upFChar
  root : ∃ root sep, st.Ok front root sep ∧ 2 ≤ root.length ∧
    (sep = backslash ∨ sep = slash ∧ st.buf.text = root ∧ root.length = 2 ∧ DeviceOnly st.result)

variable {k : Kernel} {front x : UInt8} {s : Str}

theorem Bare.skipDrive (x : UInt8) (s : Str) : skipDrive (x :: colon :: s) = s := rfl

theorem Bare.getRoot (h : Bare s) : getRoot s = s := by
  have hall : ∀ c ∈ s.reverse, (!(isSep c || c == colon)) = true := fun c hc => by
    obtain ⟨hsep, hcolon⟩ := h.not_sep c (List.mem_reverse.mp hc)
    simp [hsep, hcolon]
  rw [Path.getRoot, List.takeWhile_eq_self_iff.mpr hall, List.reverse_reverse]

theorem Bare.isPlain (h : Bare s) : k.isPlain s = true := by
  simp [Kernel.isPlain, h.getRoot]

theorem Bare.not_absolute (h : Bare s) : ¬ s.head?.any isSep = true := by
  cases s with
  | nil => exact fun hany => absurd hany (by decide)
  | cons c s => simp [(h.not_sep c List.mem_cons_self).1]

theorem Bare.not_any (h : Bare s) : ¬ s.any isSep = true := by
  simpa using fun c hc => (h.not_sep c hc).1

/-- A device keeps its bit, and the network bit is taken away. -/
theorem deviceOnly_withoutBit {result : ℕ} (h : result &&& isDeviceBit ≠ 0) :
    DeviceOnly (withoutBit result isNetworkBit) := by
  have hbit : result.testBit 5 = true := by
    by_contra hne
    refine h (Nat.eq_of_testBit_eq fun i => ?_)
    have h5 : isDeviceBit = 2 ^ 5 := rfl
    rw [Nat.testBit_and, h5, Nat.testBit_two_pow, Nat.zero_testBit]
    by_cases hi : 5 = i
    · rw [← hi, eq_false_of_ne_true hne, Bool.false_and]
    · rw [decide_eq_false hi, Bool.and_false]
  refine Nat.eq_of_testBit_eq fun i => ?_
  have h5 : isDeviceBit = 2 ^ 5 := rfl
  have h6 : isNetworkBit = 2 ^ 6 := rfl
  rw [withoutBit, h5, h6, Nat.testBit_and, Nat.testBit_xor, Nat.testBit_and, Nat.testBit_or,
    Nat.testBit_two_pow, Nat.testBit_two_pow]
  by_cases hi : 5 = i
  · rw [← hi, hbit]
    decide
  · rw [decide_eq_false hi, Bool.or_false]
    by_cases hi' : 6 = i
    · rw [decide_eq_true hi', Bool.and_true, Bool.and_true, Bool.xor_self]
    · rw [decide_eq_false hi', Bool.and_false]

/-- What comes of the current directory of a drive. -/
theorem Kernel.qualify_bare (h : Bare s) (drive result : ℕ) {t : TempCds} (ht : t.Ok)
    (hreal : t.real = true) {dest : List UInt8} (hdest : dest.length ≤ 12) :
    (∃ r, k.qualify front mode0 drive result t s dest = .error r ∧ r.code < 0) ∨
      ∃ st, k.qualify front mode0 drive result t s dest = .ok st ∧ k.Starts front s st := by
  have hreal' : ∀ {P : Prop}, t.real = false → P := fun hf => by
    rw [hreal] at hf
    cases hf
  have hspec := @Kernel.qualify_spec k front mode0 drive result t ht s dest hdest
    (fun hf => hreal' hf) (fun hf => hreal' hf)
  have hroot : 2 ≤ ((k.enterDir t).currentPath.take (k.enterDir t).backslashOffset).length ∧
      2 ≤ (t.currentPath.take t.backslashOffset).length := by
    have h1 := (ht.enterDir k).root ((k.real_enterDir t).trans hreal)
    have h2 := ht.root hreal
    rw [List.length_take, List.length_take]
    omega
  have hres : (∃ r, k.qualify front mode0 drive result t s dest = .error r ∧
        (r.code < 0 ∨ r.astray = true)) ∨
      ∃ st, k.qualify front mode0 drive result t s dest = .ok st ∧ st.src = s ∧
        st.k.upFChar = k.upFChar ∧ 2 ≤ st.rootPos := by
    rw [Kernel.qualify]
    simp only [show mode0.skipPhysical = false from rfl, Bool.false_eq_true, if_false]
    split
    · exact Or.inl ⟨_, rfl, Or.inl (show dePathNotFnd < 0 by decide)⟩
    · generalize (t.real && !t.netwdrv) = isLocal
      cases isLocal
      all_goals
        simp only [Bool.false_eq_true, if_false, if_true, h.not_absolute]
        split
        · exact Or.inl ⟨_, rfl, Or.inr rfl⟩
        · refine Or.inr ⟨_, rfl, rfl, rfl, ?_⟩
          first | exact hroot.1 | exact hroot.2
  rcases hspec with ⟨r, -, -, hf, -⟩ | ⟨-, ⟨r, hr, hin⟩ | ⟨st, root, hst, hok⟩⟩
  · exact hreal' hf
  · rcases hres with ⟨r', hr', hcode⟩ | ⟨st, hst, -⟩
    · obtain rfl := Except.error.inj (hr.symm.trans hr')
      refine Or.inl ⟨r, hr, hcode.resolve_right ?_⟩
      rw [hin.not_astray]
      decide
    · cases hr.symm.trans hst
  · rcases hres with ⟨r, hr, -⟩ | ⟨st', hst', hsrc, hup, hpos⟩
    · cases hr.symm.trans hst
    · obtain rfl := Except.ok.inj (hst.symm.trans hst')
      exact Or.inr ⟨st, hst, hsrc, hup, root, backslash, hok, hok.rootPos ▸ hpos, Or.inl rfl⟩

/-- What comes of a drive. -/
theorem Kernel.mapLocal_bare (h : Bare s) (drive result : ℕ) {t : TempCds} (ht : t.Ok)
    (dhp : Option Dhdr) (hdhp : t.real = false → dhp.isSome) :
    (∃ r, k.mapLocal front mode0 drive result t dhp (x :: colon :: s) = .error r ∧ r.code < 0) ∨
      ∃ st, k.mapLocal front mode0 drive result t dhp (x :: colon :: s) = .ok st ∧
        k.Starts front s st := by
  rw [Kernel.mapLocal]
  dsimp only
  rw [Bare.skipDrive, h.getRoot, h.isPlain]
  generalize hres : (if dhp.isSome = true then withBit (if t.netwdrv = true then
    withBit result isNetworkBit else result) isDeviceBit else
    if t.netwdrv = true then withBit result isNetworkBit else result) = res
  by_cases hdev : res &&& isDeviceBit ≠ 0
  · rw [if_pos ⟨hdev, rfl⟩]
    refine Or.inr ⟨_, rfl, rfl, rfl, [drNrToLetter (res &&& 0x1f), colon], slash, ⟨rfl,
      ⟨fun h => (by cases h), fun h => (by cases h)⟩, ⟨⟨?_, ?_⟩, ⟨[], rfl⟩, rfl⟩,
      fun h => (by cases h)⟩, le_refl 2, Or.inr ⟨rfl, rfl, rfl, deviceOnly_withoutBit hdev⟩⟩
    · simp
    · simp [sftMax]
  · rw [if_neg fun h => hdev h.1]
    refine Kernel.qualify_bare h drive res ht ?_ (by simp)
    by_contra hf
    refine hdev ?_
    rw [← hres, if_pos (hdhp (by simpa using hf)), withBit, isDeviceBit]
    intro h0
    have h5 := congrArg (fun n : ℕ => n.testBit 5) h0
    rw [Nat.testBit_and, Nat.testBit_or, show Nat.testBit 0x20 5 = true from rfl] at h5
    simp at h5

/-- **Up to the loop**, for a name without a path. -/
theorem Kernel.begin_bare (h : Bare s) :
    (∃ r, k.begin front (x :: colon :: s) mode0 = .error r ∧
        (r.code < 0 ∨ r.path ≠ [] ∧ k.qRemoteFn (x :: colon :: s) = some r.path)) ∨
      ∃ st, k.begin front (x :: colon :: s) mode0 = .ok st ∧ k.Starts front s st := by
  rw [Kernel.begin]
  dsimp only
  have hunc : ¬ ((x :: colon :: s).head? = some backslash ∧
      (x :: colon :: s).tail.head? = some backslash) := fun hu =>
    absurd (Option.some.inj hu.2) (by decide)
  rw [if_neg (List.cons_ne_nil _ _), if_neg hunc, Kernel.remote,
    if_neg (show ¬ mode0.skipPhysical = true by decide)]
  cases hrem : (k.qRemoteFn (x :: colon :: s)).filter fun path => path ≠ [] with
  | some path =>
    obtain ⟨hq, hne⟩ := Option.filter_eq_some_iff.mp hrem
    exact Or.inl ⟨_, rfl, Or.inr ⟨by simpa using hne, hq⟩⟩
  | none =>
    have hfail : ∀ dest, (k.fail dePathNotFnd dest).code < 0 := fun dest =>
      show dePathNotFnd < 0 by decide
    dsimp only
    rw [Bare.skipDrive]
    split
    · exact (Kernel.mapLocal_bare h _ _ (TempCds.ok_ofCds _) _ fun h => (by cases h)).imp_left
        fun h => h.imp fun r hr => ⟨hr.1, Or.inl hr.2⟩
    · exact Or.inl ⟨_, rfl, Or.inl (hfail _)⟩
    · have hname : devName s = s := by rw [devName, if_neg h.not_any]
      split
      · exact Or.inl ⟨_, rfl, Or.inl (hfail _)⟩
      · rw [hname, if_neg (Nat.not_le.mpr h.lt)]
        exact (Kernel.mapLocal_bare h _ _ (TempCds.ok_ofName h.lt) (some _) fun _ => rfl).imp_left
          fun h => h.imp fun r hr => ⟨hr.1, Or.inl hr.2⟩

/-! ## The loop -/

/-- A component is put behind a separator. -/
theorem walk_bytes (c : Component) {rootPos : ℕ} {sep : UInt8} {path p : Str} {w : Bool}
    (h : walk rootPos sep c.bytes.length c.bytes false path = some (p, w)) :
    p = withSep sep path ++ c.bytes ∧ w = c.wild := by
  obtain ⟨n, hn⟩ := Nat.exists_eq_succ_of_ne_zero (mt List.length_eq_zero_iff.mp c.bytes_ne)
  have hseg := @segment_bytes c [] rfl
  rw [List.append_nil] at hseg
  have hone : c.bytes ≠ [dot] := fun he => c.head?_bytes (by rw [he]; rfl)
  have htwo : c.bytes ≠ [dot, dot] := fun he => c.head?_bytes (by rw [he]; rfl)
  rw [hn, walk, if_neg c.bytes_ne, if_neg Bool.false_ne_true, hseg.1, hseg.2] at h
  obtain ⟨q, hq, hw⟩ := Option.bind_eq_some_iff.mp h
  rw [enter, ← withSep] at hq
  by_cases hfull : sftMax < (withSep sep path).length
  · rw [if_pos hfull] at hq
    cases hq
  · rw [if_neg hfull, if_neg hone, if_neg htwo, if_neg c.head?_bytes, fit_bytes,
      Option.bind_some] at hq
    split at hq
    · cases hq
    · obtain rfl := Option.some.inj hq
      have hend : walk rootPos sep n [] c.wild (withSep sep path ++ c.bytes) =
          some (withSep sep path ++ c.bytes, c.wild) := by
        cases n <;> rfl
      dsimp only at hw
      rw [hend] at hw
      obtain ⟨rfl, rfl⟩ := Prod.mk.inj (Option.some.inj hw)
      exact ⟨rfl, rfl⟩

/-- Just an extension is no component. -/
theorem walk_ext {b : Str} (hne : b ≠ []) (hdot : b.head? ≠ some dot)
    (hsep : ∀ c ∈ b, isSep c = false) (rootPos : ℕ) (sep : UInt8) (path : Str) :
    walk rootPos sep (dot :: b).length (dot :: b) false path = none := by
  have hall : ∀ c ∈ dot :: b, (!isSep c) = true := fun c hc => by
    rcases List.mem_cons.mp hc with rfl | hc
    · decide
    · rw [hsep c hc]
      rfl
  have hseg : segment (dot :: b) = dot :: b := by
    rw [segment, List.dropWhile_cons_of_neg (by decide), List.takeWhile_eq_self_iff]
    exact hall
  have htwo : dot :: b ≠ [dot, dot] := fun he => hdot (by rw [(List.cons.inj he).2]; rfl)
  rw [List.length_cons, walk, if_neg (List.cons_ne_nil _ _), if_neg Bool.false_ne_true, hseg, enter,
    ← withSep]
  by_cases hfull : sftMax < (withSep sep path).length
  · rw [if_pos hfull]
    rfl
  · rw [if_neg hfull, if_neg (by simpa using hne), if_neg htwo, if_pos List.head?_cons]
    rfl

/-! ## The end -/

/-- The path of a device just behind the letter is not joined. -/
theorem Kernel.finish_slash {path : Str} (h : path[2]? = some slash) (result stored : ℕ) :
    (k.finish mode0 result path stored).code = result := by
  rw [Kernel.finish]
  dsimp only
  rw [if_neg fun hp => hp.1 h]
  dsimp only
  rw [if_neg (by simp [mode0]), if_neg (by simp [mode0])]

/-- A drive that is joined to a directory takes its place in front of the name. -/
theorem Kernel.finish_endsIn {r t : Str} (hr : 2 ≤ r.length) (ht : ∀ c ∈ t, c ≠ backslash)
    (result stored : ℕ) :
    EndsIn (k.finish mode0 result (r ++ backslash :: t) stored).path t := by
  rw [Kernel.finish]
  dsimp only
  split
  · rename_i i hi
    dsimp only
    split at hi
    · obtain ⟨hlt, hcds, -⟩ := List.findIdx?_eq_some_iff_getElem.mp hi
      simp only [Bool.and_eq_true] at hcds
      obtain ⟨⟨-, hhead⟩, -⟩ := hcds
      rw [List.getElem?_eq_getElem hlt, Option.map_some, Option.getD_some]
      generalize (k.cds[i]).currentPath.length = j at hhead
      split
      · exact Or.inl rfl
      · rename_i hne
        refine Or.inr ⟨drNrToLetter i :: colon :: r.drop j, by simp, ?_⟩
        have hle : j ≤ r.length := by
          by_contra hgt
          rw [List.drop_append, List.drop_eq_nil_of_le (by omega), List.nil_append] at hhead hne
          obtain ⟨n, hn⟩ := Nat.exists_eq_succ_of_ne_zero (show j - r.length ≠ 0 by omega)
          rw [hn, List.drop_succ_cons] at hhead hne
          obtain ⟨c, u, hcu⟩ := List.exists_cons_of_ne_nil hne
          rw [hcu] at hhead
          exact ht c (List.mem_of_mem_drop (by rw [hcu]; exact List.mem_cons_self))
            (by simpa using hhead)
        rw [List.drop_append_of_le_length hle]
        rfl
    · cases hi
  · rw [if_neg (by simp [mode0]), if_neg (by simp [mode0])]
    exact Or.inr ⟨r, hr, rfl⟩

/-- What the loop comes to, or why it does not. -/
theorem Kernel.Starts.resolve {st : Start} (h : k.Starts front s st) :
    ∃ root sep, 2 ≤ root.length ∧ root <+: st.buf.text ∧ Rooted root sep ∧
      (sep = backslash ∨
        sep = slash ∧ st.buf.text = root ∧ root.length = 2 ∧ DeviceOnly st.result) ∧
      ((st.complete front mode0).code < 0 ∨ ∃ path stored,
        walk root.length sep s.length s false st.buf.text = some (path, false) ∧
          st.complete front mode0 =
            let text := if path.length = 2 then path ++ [backslash] else path
            st.k.finish mode0 st.result
              (text.take root.length ++ (text.drop root.length).map k.upFChar) stored) := by
  obtain ⟨root, sep, hok, hlen, hsep⟩ := h.root
  refine ⟨root, sep, hlen, hok.at_root.root_pre, hok.rooted, hsep, ?_⟩
  have hresolve := hok.resolve_eq
  rw [h.src] at hresolve
  rcases Start.complete_cases hok mode0 with ⟨hfail, -⟩ | ⟨path, wild, hpath, -, hallow, stored, hc⟩
  · exact Or.inl hfail
  · have hwild : wild = false := by
      by_contra hne
      exact absurd (hallow (by simpa using hne)) (by decide)
    rw [hresolve, hwild] at hpath
    rw [h.up] at hc
    exact Or.inr ⟨path, stored, hpath, hc⟩

/-- The separator goes behind the root. -/
theorem withSep_eq {root path : Str} {sep : UInt8} (hroot : root <+: path)
    (hlast : root.getLast? ≠ some sep) : ∃ u, withSep sep path = root ++ u ++ [sep] := by
  obtain ⟨u, rfl⟩ := hroot
  rw [withSep]
  split
  · rename_i hend
    rcases List.eq_nil_or_concat u with rfl | ⟨u, c, rfl⟩
    · rw [List.append_nil] at hend
      exact absurd hend hlast
    · refine ⟨u, ?_⟩
      rw [List.concat_eq_append, ← List.append_assoc, List.getLast?_concat] at hend
      rw [List.concat_eq_append, Option.some.inj hend, List.append_assoc]
  · exact ⟨u, rfl⟩

/-- **The loop on a component.** -/
theorem Kernel.Starts.complete_bytes {st : Start} {c : Component} (hup : UpcaseOk k.upFChar)
    (h : k.Starts front c.bytes st) : (st.complete front mode0).code < 0 ∨
      DeviceOnly (st.complete front mode0).code.toNat ∨
      EndsIn (st.complete front mode0).path (c.bytes.map k.upFChar) := by
  obtain ⟨root, sep, hlen, hpre, hrooted, hsep, hfail | ⟨path, stored, hwalk, hc⟩⟩ := h.resolve
  · exact Or.inl hfail
  · obtain ⟨rfl, -⟩ := walk_bytes c hwalk
    have hfixed := k.upFChar_fixed
    obtain ⟨u, hu⟩ := withSep_eq hpre hrooted.last_ne
    have hne : (withSep sep st.buf.text ++ c.bytes).length ≠ 2 := by
      rw [hu]
      simp only [List.length_append, List.length_singleton]
      omega
    dsimp only at hc
    rw [if_neg hne, hu, List.append_assoc, List.append_assoc, List.take_left, List.drop_left,
      List.map_append, List.map_append] at hc
    rw [hc]
    rcases hsep with rfl | ⟨rfl, htext, h2, hdev⟩
    · right; right
      rw [List.map_singleton, hfixed.1, ← List.append_assoc]
      refine Kernel.finish_endsIn (by rw [List.length_append]; omega) (fun x hx => ?_) _ _
      rw [← c.bytes_upper hup hfixed.2] at hx
      rintro rfl
      exact absurd ((c.upper hup).not_sep hx) (by decide)
    · right; left
      have hnil : u = [] := by
        rw [htext, withSep, if_neg hrooted.last_ne] at hu
        simpa using hu
      have hslash : k.upFChar slash = slash := by
        simp only [Kernel.upFChar, upChar]
        rfl
      rw [hnil, List.map_nil, List.nil_append, List.map_singleton, hslash, Kernel.finish_slash]
      · exact hdev
      · rw [List.getElem?_append_right (by omega), h2]
        rfl

/-- The loop on just an extension. -/
theorem Kernel.Starts.complete_ext {st : Start} {b : Str} (hne : b ≠ []) (hdot : b.head? ≠ some dot)
    (hsep : ∀ c ∈ b, isSep c = false) (h : k.Starts front (dot :: b) st) :
    (st.complete front mode0).code < 0 := by
  obtain ⟨root, sep, -, -, -, -, hfail | ⟨path, stored, hwalk, -⟩⟩ := h.resolve
  · exact hfail
  · rw [walk_ext hne hdot hsep] at hwalk
    cases hwalk

/-! ## Names behind a drive letter -/

/-- What a redirector makes of a name without a path, if it qualifies names: it rejects what is no
name in the 8.3 convention, and a component gets its path in front of it. -/
structure Kernel.Qualifies (k : Kernel) : Prop where
  component : ∀ x (c : Component) path, k.qRemoteFn (x :: colon :: c.bytes) = some path →
    path = [] ∨ EndsIn path (c.bytes.map k.upFChar)
  ext : ∀ x b path, k.qRemoteFn (x :: colon :: dot :: b) = some path → path = []

theorem Component.bare (c : Component) : Bare c.bytes where
  ne_nil := c.bytes_ne
  not_sep x hx := by
    refine ⟨c.not_sep hx, ?_⟩
    rintro rfl
    rcases c.mem_bytes hx with h | h
    · exact absurd h.dirChar (by decide)
    · exact absurd h (by decide)
  lt := by
    have h1 := c.name_le
    have h2 := c.ext_le
    rw [Component.bytes, dotted, List.length_append]
    split <;>
      simp only [List.length_nil, List.length_cons, fnameSize, fextSize, maxCdsPath] at * <;> omega

/-- **`truename` of a component behind a drive letter** ends in that component in upper case. -/
theorem Kernel.truename_component (hup : UpcaseOk k.upFChar) (hq : k.Qualifies) (front x : UInt8)
    (c : Component) (hcode : 0 ≤ (k.truename front (x :: colon :: c.bytes) mode0).code)
    (hdev : ¬ DeviceOnly (k.truename front (x :: colon :: c.bytes) mode0).code.toNat) :
    EndsIn (k.truename front (x :: colon :: c.bytes) mode0).path (c.bytes.map k.upFChar) := by
  rw [Kernel.truename] at hcode hdev ⊢
  rcases @Kernel.begin_bare k front x _ c.bare with
    ⟨r, hr, hfail | ⟨hne, hremote⟩⟩ | ⟨st, hst, hstarts⟩
  · rw [hr] at hcode
    exact absurd hfail (not_lt.mpr hcode)
  · rw [hr]
    exact (hq.component x c _ hremote).resolve_left hne
  · rw [hst] at hcode hdev ⊢
    exact ((hstarts.complete_bytes hup).resolve_left (not_lt.mpr hcode)).resolve_left hdev

/-- `truename` rejects just an extension. -/
theorem Kernel.truename_ext (hq : k.Qualifies) (front x : UInt8) {b : Str} (hne : b ≠ [])
    (hplain : ∀ c ∈ b, Plain c) (hlt : b.length < fnameSize) :
    (k.truename front (x :: colon :: dot :: b) mode0).code < 0 := by
  have hbare : Bare (dot :: b) := by
    refine ⟨List.cons_ne_nil _ _, fun c hc => ?_, ?_⟩
    · rcases List.mem_cons.mp hc with rfl | hc
      · decide
      · refine ⟨(hplain c hc).not_sep, ?_⟩
        rintro rfl
        exact absurd (hplain _ hc).dirChar (by decide)
    · simp only [List.length_cons, fnameSize, maxCdsPath] at *
      omega
  rw [Kernel.truename]
  rcases @Kernel.begin_bare k front x _ hbare with
    ⟨r, hr, hfail | ⟨hne, hremote⟩⟩ | ⟨st, hst, hstarts⟩
  · rw [hr]
    exact hfail
  · exact absurd (hq.ext x b _ hremote) hne
  · rw [hst]
    refine hstarts.complete_ext hne (fun hd => ?_) fun c hc => (hplain c hc).not_sep
    exact (hplain dot (List.mem_of_mem_head? hd)).not_dot rfl

end Path
end BurdahDos
