import BurdahDos.Resource.Defs
import Mathlib

/-!
# The reader finds what the writer has appended

The control area of the last resource is the end of the file, and the resource before it ends where
the last one starts.  `nextResource_append` is one step back, `enumLoop_calls` the whole walk over
appended resources.

* `enumFileResources_iff`: a file is enumerated as it has been written if and only if no process
  writes two resources, the first control area is not the first thing in the file, and the last one
  is within reach of `lseek`.  For any file, the walk ends and goes towards the beginning only.
* `second_resource_aborts`: `endResource` leaves the major ID in the static variable, so that an
  assertion fails when a second resource is started.
-/

set_option autoImplicit false

namespace BurdahDos
namespace Resource

/-! ## The control area -/

theorem toBytes_length (n v : ℕ) : (toBytes n v).length = n := by
  induction n generalizing v with
  | zero => rfl
  | succ n ih => rw [toBytes, List.length_cons, ih]

theorem ofBytes_toBytes (n v : ℕ) : ofBytes (toBytes n v) = v % 256 ^ n := by
  induction n generalizing v with
  | zero => rw [toBytes, ofBytes, Nat.pow_zero, Nat.mod_one]
  | succ n ih =>
    have hc : (UInt8.ofNat v).toNat = v % 256 := UInt8.toNat_ofNat'
    rw [toBytes, ofBytes, ih, hc, Nat.pow_succ', Nat.mod_mul]

theorem bytes_length (res : Control) : res.bytes.length = 16 := by
  simp [Control.bytes, toBytes_length, resCookie]

/-- A control area is read as it has been written. -/
theorem controlOf_bytes (res : Control) : controlOf res.bytes = (res, resCookie) := by
  have h4 := toBytes_length 4 res.length.toNat
  have h2 := toBytes_length 2 res.majorID.toNat
  have h2' := toBytes_length 2 res.minorID.toNat
  have hlength := res.length.toNat_lt
  have hmajor := res.majorID.toNat_lt
  have hminor := res.minorID.toNat_lt
  have htake4 : res.bytes.take 4 = toBytes 4 res.length.toNat := by
    rw [Control.bytes, List.take_left' h4]
  have hdrop4 : res.bytes.drop 4 = toBytes 2 res.majorID.toNat ++
      (toBytes 2 res.minorID.toNat ++ resCookie) := by
    rw [Control.bytes, List.drop_left' h4]
  have hdrop6 : res.bytes.drop 6 = toBytes 2 res.minorID.toNat ++ resCookie := by
    rw [show 6 = 4 + 2 from rfl, ← List.drop_drop, hdrop4, List.drop_left' h2]
  have hdrop8 : res.bytes.drop 8 = resCookie := by
    rw [show 8 = 6 + 2 from rfl, ← List.drop_drop, hdrop6, List.drop_left' h2']
  rw [controlOf, htake4, hdrop4, hdrop6, hdrop8, List.take_left' h2, List.take_left' h2',
    ofBytes_toBytes, ofBytes_toBytes, ofBytes_toBytes, Nat.mod_eq_of_lt (by omega),
    Nat.mod_eq_of_lt (by omega), Nat.mod_eq_of_lt (by omega), UInt32.ofNat_toNat,
    UInt16.ofNat_toNat, UInt16.ofNat_toNat]

/-! ## One step back -/

theorem toNat_sub {a b : UInt32} (h : b.toNat ≤ a.toNat) : (a - b).toNat = a.toNat - b.toNat :=
  UInt32.toNat_sub_of_le a b (UInt32.le_iff_toNat_le.2 h)

theorem controlSize_toNat : controlSize.toNat = 16 := rfl

/-- A resource in a file. -/
def Entry.bytes (e : Entry) : Str :=
  e.data ++ (Control.mk (UInt32.ofNat e.data.length) e.majorID e.minorID).bytes

theorem entry_length (e : Entry) : e.bytes.length = e.data.length + 16 := by
  rw [Entry.bytes, List.length_append, bytes_length]

/-- The call for a resource that starts at a position. -/
def Entry.call (e : Entry) (pos : ℕ) : Call := ⟨e.majorID, e.minorID, e.data.length, pos⟩

theorem readControl_append (pre : Str) (res : Control) (behind : Str) :
    readControl (pre ++ (res.bytes ++ behind)) pre.length = some (res, resCookie) := by
  have hlen := bytes_length res
  rw [readControl, if_pos (by simp only [List.length_append]; omega), List.drop_left,
    List.take_left' hlen, controlOf_bytes]

/-- The resource at the end is found. -/
theorem nextResource_append {pre : Str} {e : Entry} (behind : Str)
    (hpos : 0 < pre.length + e.data.length) (hlt : pre.length + e.data.length < 2 ^ 31) :
    ∃ seeks, nextResource (pre ++ (e.bytes ++ behind))
      (UInt32.ofNat (pre.length + e.data.length + 16)) = (some (e.call pre.length), seeks) := by
  have hnat : (UInt32.ofNat (pre.length + e.data.length + 16)).toNat =
      pre.length + e.data.length + 16 := UInt32.toNat_ofNat_of_lt' (by rw [UInt32.size]; omega)
  have hle : ¬ UInt32.ofNat (pre.length + e.data.length + 16) ≤ controlSize := by
    rw [UInt32.le_iff_toNat_le, hnat, controlSize_toNat]
    omega
  have hsub : (UInt32.ofNat (pre.length + e.data.length + 16) - controlSize).toNat =
      pre.length + e.data.length := by
    rw [toNat_sub (by rw [hnat, controlSize_toNat]; omega), hnat, controlSize_toNat]
    omega
  have hlength : (UInt32.ofNat e.data.length).toNat = e.data.length :=
    UInt32.toNat_ofNat_of_lt' (by rw [UInt32.size]; omega)
  have hread := readControl_append (pre ++ e.data)
    ⟨UInt32.ofNat e.data.length, e.majorID, e.minorID⟩ behind
  rw [List.length_append, List.append_assoc] at hread
  have hfile : pre ++ (e.bytes ++ behind) = pre ++ (e.data ++
      ((Control.mk (UInt32.ofNat e.data.length) e.majorID e.minorID).bytes ++ behind)) := by
    rw [Entry.bytes, List.append_assoc]
  rw [hfile, nextResource, if_neg hle]
  simp only
  generalize UInt32.ofNat (pre.length + e.data.length + 16) - controlSize = pos at hsub
  have hnlt : ¬ pos < UInt32.ofNat e.data.length := by
    rw [UInt32.lt_iff_toNat_lt, hsub, hlength]
    omega
  have hstart : (pos - UInt32.ofNat e.data.length).toNat = pre.length := by
    rw [toNat_sub (by omega), hsub, hlength]
    omega
  have hseek : lseekFails pos = false := decide_eq_false (by omega)
  have hseek' : lseekFails (pos - UInt32.ofNat e.data.length) = false := decide_eq_false (by omega)
  rw [hseek, hsub, hread]
  simp only [hseek', hlength, hstart, if_neg hnlt, Entry.call]
  exact ⟨_, rfl⟩

/-- Only what is in front of the position matters. -/
theorem nextResource_take {file : Str} (behind : Str) {pos : UInt32} (h : pos.toNat ≤ file.length) :
    nextResource (file ++ behind) pos = nextResource file pos := by
  rw [nextResource, nextResource]
  split
  next => rfl
  next hle =>
    have hlt : 16 < pos.toNat := by
      rw [UInt32.le_iff_toNat_le, controlSize_toNat] at hle
      omega
    have hsub : (pos - controlSize).toNat + 16 = pos.toNat := by
      rw [toNat_sub (by rw [controlSize_toNat]; omega), controlSize_toNat]
      omega
    have hread : readControl (file ++ behind) (pos - controlSize).toNat =
        readControl file (pos - controlSize).toNat := by
      rw [readControl, readControl, if_pos (by rw [List.length_append]; omega), if_pos (by omega),
        List.drop_append_of_le_length (by omega), List.take_append_of_le_length
          (by rw [List.length_drop]; omega)]
    simp only [hread]

/-- The positions sought go towards the beginning of the file, and so does the next resource. -/
theorem nextResource_back (file : Str) (pos : UInt32) :
    (pos :: (nextResource file pos).2).Pairwise (fun a b => b ≤ a) ∧
      ∀ c, (nextResource file pos).1 = some c → c.pos < pos.toNat ∧
        ∀ a ∈ pos :: (nextResource file pos).2, c.pos ≤ a.toNat := by
  have hone : ∀ p : UInt32, p ≤ pos → (pos :: [p]).Pairwise (fun a b => b ≤ a) := by
    intro p hp
    simpa using hp
  have hnone : ∀ (l : List UInt32) (P : Call → Prop), (pos :: l).Pairwise (fun a b => b ≤ a) →
      (pos :: ((none : Option Call), l).2).Pairwise (fun a b => b ≤ a) ∧
        ∀ c, ((none : Option Call), l).1 = some c → P c :=
    fun l P hl => ⟨hl, fun c hc => absurd hc (by simp)⟩
  rw [nextResource]
  split
  next => exact hnone _ _ (by simp)
  next hle =>
    have hsub : (pos - controlSize).toNat + 16 = pos.toNat := by
      rw [UInt32.le_iff_toNat_le, controlSize_toNat] at hle
      rw [toNat_sub (by rw [controlSize_toNat]; omega), controlSize_toNat]
      omega
    have hctl : pos - controlSize ≤ pos := UInt32.le_iff_toNat_le.2 (by omega)
    simp only
    split
    next => exact hnone _ _ (hone _ hctl)
    next =>
      split
      next => exact hnone _ _ (hone _ hctl)
      next res cookie _ =>
        split
        next => exact hnone _ _ (hone _ hctl)
        next =>
          split
          next => exact hnone _ _ (hone _ hctl)
          next hlen =>
            have hstart : (pos - controlSize - res.length).toNat + res.length.toNat =
                (pos - controlSize).toNat := by
              rw [UInt32.lt_iff_toNat_lt] at hlen
              rw [toNat_sub (by omega)]
              omega
            have hchain : (pos :: [pos - controlSize, pos - controlSize - res.length]).Pairwise
                (fun a b => b ≤ a) := by
              simp only [List.pairwise_cons, List.mem_cons, List.not_mem_nil, or_false, forall_eq,
                forall_eq_or_imp, UInt32.le_iff_toNat_le]
              exact ⟨⟨by omega, by omega⟩, by omega, by simp⟩
            split
            next => exact hnone _ _ hchain
            next =>
              refine ⟨hchain, fun c hc => ?_⟩
              have hpos : (pos - controlSize - res.length).toNat = c.pos :=
                congrArg Call.pos (Option.some.inj hc)
              simp only [List.mem_cons, List.not_mem_nil, or_false, forall_eq, forall_eq_or_imp]
              omega

/-! ## The walk -/

section walk

variable {σ : Type} {file : Str} {id : UInt16} {fct : Call → σ → ℤ × σ}

theorem toNat_pos {c : Call} {pos : UInt32} (h : c.pos < pos.toNat) :
    (UInt32.ofNat c.pos).toNat = c.pos := by
  have := pos.toNat_lt
  exact UInt32.toNat_ofNat_of_lt' (by rw [UInt32.size]; omega)

/-- The walk ends, and goes towards the beginning of the file. -/
theorem enumLoop_ends {fuel : ℕ} {pos : UInt32} (h : pos.toNat < fuel) (arg : σ) :
    ∃ o, enumLoop file id fct fuel pos arg = some o ∧
      (pos :: o.seeks).Pairwise (fun a b => b ≤ a) := by
  induction fuel generalizing pos arg with
  | zero => omega
  | succ fuel ih =>
    obtain ⟨hchain, hback⟩ := nextResource_back file pos
    rw [enumLoop]
    simp only
    split
    next => exact ⟨⟨0, arg, (nextResource file pos).2⟩, rfl, hchain⟩
    next c hc =>
      obtain ⟨hlt, hall⟩ := hback c hc
      generalize (if c.wanted id = true then fct c arg else (0, arg)) = r
      split
      next => exact ⟨⟨r.1, r.2, (nextResource file pos).2⟩, rfl, hchain⟩
      next =>
        have hnat := toNat_pos hlt
        have hfuel : (UInt32.ofNat c.pos).toNat < fuel := by omega
        obtain ⟨o, ho, hseeks⟩ := ih hfuel r.2
        refine ⟨_, by rw [ho]; rfl, ?_⟩
        rw [List.pairwise_cons] at hseeks
        rw [← List.cons_append, List.pairwise_append]
        refine ⟨hchain, hseeks.2, fun a ha b hb => ?_⟩
        have hb' := hseeks.1 b hb
        have ha' := hall a ha
        rw [UInt32.le_iff_toNat_le, hnat] at hb'
        exact UInt32.le_iff_toNat_le.2 (hb'.trans ha')

/-- Enough fuel is enough. -/
theorem enumLoop_fuel {fuel fuel' : ℕ} {pos : UInt32} (h : pos.toNat < fuel)
    (h' : pos.toNat < fuel') (arg : σ) :
    enumLoop file id fct fuel pos arg = enumLoop file id fct fuel' pos arg := by
  induction fuel generalizing fuel' pos arg with
  | zero => omega
  | succ fuel ih =>
    obtain ⟨fuel', rfl⟩ : ∃ k, fuel' = k + 1 := ⟨fuel' - 1, by omega⟩
    obtain ⟨-, hback⟩ := nextResource_back file pos
    rw [enumLoop, enumLoop]
    simp only
    split
    next => rfl
    next c hc =>
      have hlt := (hback c hc).1
      have hnat := toNat_pos hlt
      have hle : (UInt32.ofNat c.pos).toNat < fuel' := by omega
      rw [ih (by omega) hle]

/-- What is behind the position does not matter. -/
theorem enumLoop_append (behind : Str) {pos : UInt32} (h : pos.toNat ≤ file.length) (fuel : ℕ)
    (arg : σ) : enumLoop (file ++ behind) id fct fuel pos arg = enumLoop file id fct fuel pos arg := by
  induction fuel generalizing pos arg with
  | zero => rfl
  | succ fuel ih =>
    obtain ⟨-, hback⟩ := nextResource_back file pos
    rw [enumLoop, enumLoop, nextResource_take behind h]
    simp only
    split
    next => rfl
    next c hc =>
      have hlt := (hback c hc).1
      have hnat := toNat_pos hlt
      rw [ih (by omega)]

end walk

/-! ## What is to be enumerated -/

/-- The resources, each where it starts. -/
def calls : ℕ → List Entry → List Call
  | _, [] => []
  | start, e :: es => e.call start :: calls (start + e.bytes.length) es

/-- The callback is called until it returns something other than zero; behind the calls is
`rest`. -/
def visit {σ : Type} (id : UInt16) (fct : Call → σ → ℤ × σ) (rest : σ → Option (ℤ × σ)) :
    List Call → σ → Option (ℤ × σ)
  | [], arg => rest arg
  | c :: cs, arg =>
    let r := if c.wanted id then fct c arg else (0, arg)
    if r.1 ≠ 0 then some r else visit id fct rest cs r.2

def Outcome.result {σ : Type} (o : Outcome σ) : ℤ × σ := (o.rc, o.arg)

/-- The resources in a file. -/
def appended (es : List Entry) : Str := es.flatMap Entry.bytes

theorem appended_concat (es : List Entry) (e : Entry) :
    appended (es ++ [e]) = appended es ++ e.bytes := by
  rw [appended, List.flatMap_append, List.flatMap_singleton]
  rfl

theorem calls_concat (start : ℕ) (es : List Entry) (e : Entry) :
    calls start (es ++ [e]) = calls start es ++ [e.call (start + (appended es).length)] := by
  induction es generalizing start with
  | nil => rfl
  | cons d es ih =>
    have hlen : (appended (d :: es)).length = d.bytes.length + (appended es).length := by
      rw [appended, List.flatMap_cons, List.length_append]
      rfl
    rw [List.cons_append, calls, ih, calls, hlen, Nat.add_assoc, List.cons_append]

/-- The first control area is not the first thing in the file. -/
def FirstOk (initial : Str) (es : List Entry) : Prop :=
  ∀ e, es.head? = some e → 0 < initial.length + e.data.length

/-- **Appended resources are found from the last to the first**, before what is in front of them. -/
theorem enumLoop_calls {σ : Type} (id : UInt16) (fct : Call → σ → ℤ × σ) {initial : Str}
    {es : List Entry} (hfirst : FirstOk initial es) (behind : Str)
    (hlast : (initial ++ appended es).length < 2 ^ 31 + 16) {fuel : ℕ}
    (hfuel : (initial ++ appended es).length < fuel) (arg : σ) :
    (enumLoop (initial ++ (appended es ++ behind)) id fct fuel
        (UInt32.ofNat (initial ++ appended es).length) arg).map Outcome.result =
      visit id fct (fun arg => (enumLoop initial id fct (initial.length + 1)
        (UInt32.ofNat initial.length) arg).map Outcome.result) (calls initial.length es).reverse
        arg := by
  induction es using List.reverseRecOn generalizing behind fuel arg with
  | nil =>
    rw [appended, List.flatMap_nil, List.append_nil] at hfuel hlast ⊢
    have hnat : (UInt32.ofNat initial.length).toNat = initial.length :=
      UInt32.toNat_ofNat_of_lt' (by rw [UInt32.size]; omega)
    rw [List.nil_append, enumLoop_append behind (by omega), calls, List.reverse_nil, visit,
      enumLoop_fuel (by omega) (lt_of_eq_of_lt hnat (Nat.lt_succ_self _))]
  | append_singleton es e ih =>
    have hfirst' : FirstOk initial es := by
      intro d hd
      refine hfirst d ?_
      rw [List.head?_append, hd]
      rfl
    have hpos : 0 < (initial ++ appended es).length + e.data.length := by
      rw [List.length_append]
      cases es with
      | nil =>
        have := hfirst e rfl
        omega
      | cons d es =>
        rw [appended, List.flatMap_cons, List.length_append, entry_length]
        omega
    have hlen : (initial ++ appended (es ++ [e])).length =
        (initial ++ appended es).length + e.data.length + 16 := by
      rw [appended_concat, ← List.append_assoc, List.length_append, entry_length, Nat.add_assoc]
    have hfile : initial ++ (appended (es ++ [e]) ++ behind) =
        (initial ++ appended es) ++ (e.bytes ++ behind) := by
      rw [appended_concat, List.append_assoc, List.append_assoc]
    obtain ⟨fuel, rfl⟩ : ∃ k, fuel = k + 1 := ⟨fuel - 1, by omega⟩
    obtain ⟨seeks, hnext⟩ := nextResource_append behind hpos (by omega)
    have hcall : (e.call (initial ++ appended es).length).pos = (initial ++ appended es).length := rfl
    rw [calls_concat, List.reverse_append, List.reverse_singleton, List.singleton_append, visit,
      ← List.length_append, hfile, hlen, enumLoop, hnext]
    simp only
    generalize (if (e.call (initial ++ appended es).length).wanted id = true then
      fct (e.call (initial ++ appended es).length) arg else (0, arg)) = r
    split
    next => rfl
    next =>
      rw [Option.map_map, hcall, List.append_assoc]
      exact ih hfirst' (e.bytes ++ behind) (by omega) (by omega) _

/-! ## The writer -/

theorem ftell_eq {file : Str} (h : file.length < 2 ^ 32) : (ftell file).toNat = file.length :=
  UInt32.toNat_ofNat_of_lt' h

theorem ftell_ne {file : Str} (h : file.length < 2 ^ 32 - 1) : ftell file ≠ 0xffffffff := by
  intro he
  have hnat : (ftell file).toNat = file.length := ftell_eq (by omega)
  rw [he] at hnat
  have : file.length = 2 ^ 32 - 1 := hnat.symm
  omega

/-- A resource is appended, unless the static variable holds one or its major ID is
`RES_ID_NONE`. -/
theorem writeEntry_eq {res : Control} {file : Str} {e : Entry}
    (hsize : (file ++ e.bytes).length < 2 ^ 32) :
    writeEntry res file e =
      if res.majorID = resIdNone ∧ e.majorID ≠ resIdNone then
        some (⟨UInt32.ofNat e.data.length, e.majorID, e.minorID⟩, file ++ e.bytes) else none := by
  rw [List.length_append, entry_length] at hsize
  have hfile : (ftell file).toNat = file.length := ftell_eq (by omega)
  have hdata : (ftell (file ++ e.data)).toNat = (file ++ e.data).length :=
    ftell_eq (by rw [List.length_append]; omega)
  have hdiff : ftell (file ++ e.data) - ftell file = UInt32.ofNat e.data.length := by
    rw [← UInt32.toNat_inj, toNat_sub (by rw [hfile, hdata, List.length_append]; omega), hfile, hdata,
      List.length_append, UInt32.toNat_ofNat_of_lt' (by rw [UInt32.size]; omega)]
    omega
  rw [writeEntry, startResource]
  by_cases hres : res.majorID = resIdNone
  · have hne : ¬ ftell (file ++ e.data) = 0xffffffff := ftell_ne (by rw [List.length_append]; omega)
    have hnlt : ¬ ftell (file ++ e.data) < ftell file := by
      rw [UInt32.lt_iff_toNat_lt, hfile, hdata, List.length_append]
      omega
    rw [if_neg (not_not.2 hres), if_neg (ftell_ne (by omega))]
    simp only [endResource, if_neg hne, if_neg hnlt, hdiff]
    by_cases hid : e.majorID = resIdNone
    · rw [if_pos hid, if_neg (fun h => h.2 hid)]
    · rw [if_neg hid, if_pos ⟨hres, hid⟩, Entry.bytes, List.append_assoc]
  · rw [if_pos hres, if_neg (fun h => hres h.1)]

/-- A process can append one resource. -/
theorem writeEntries_eq {file : Str} {es : List Entry} (hsize : (file ++ appended es).length < 2 ^ 32) :
    writeEntries initialRes file es =
      if es.length ≤ 1 ∧ ∀ e ∈ es, e.majorID ≠ resIdNone then some (file ++ appended es) else none := by
  cases es with
  | nil => simp [writeEntries, appended]
  | cons e es =>
    have hcons : appended (e :: es) = e.bytes ++ appended es := List.flatMap_cons
    rw [hcons, ← List.append_assoc, List.length_append] at hsize
    rw [writeEntries, writeEntry_eq (by omega)]
    by_cases hid : e.majorID = resIdNone
    · rw [if_neg (fun h => h.2 hid), if_neg (fun h => h.2 e List.mem_cons_self hid)]
    · rw [if_pos ⟨rfl, hid⟩]
      cases es with
      | nil => simp [writeEntries, appended, hid]
      | cons d es =>
        have hnot : ¬ ((e :: d :: es).length ≤ 1 ∧
            ∀ c ∈ e :: d :: es, c.majorID ≠ resIdNone) := by simp
        have hlen : (appended (d :: es)).length = d.bytes.length + (appended es).length := by
          rw [appended, List.flatMap_cons, List.length_append]
          rfl
        have hsize' : (file ++ e.bytes ++ d.bytes).length < 2 ^ 32 := by
          rw [List.length_append]
          omega
        have hwrite : writeEntry ⟨UInt32.ofNat e.data.length, e.majorID, e.minorID⟩ (file ++ e.bytes)
            d = none := by
          rw [writeEntry_eq hsize', if_neg (fun h => hid h.1)]
        simp only [writeEntries, hwrite, if_neg hnot]

/-- No process writes two resources, and none has the ID `RES_ID_NONE`. -/
def Writable (processes : List (List Entry)) : Prop :=
  ∀ es ∈ processes, es.length ≤ 1 ∧ ∀ e ∈ es, e.majorID ≠ resIdNone

theorem writeAll_some_iff {file : Str} {processes : List (List Entry)}
    (hsize : (file ++ appended processes.flatten).length < 2 ^ 32) (file' : Str) :
    writeAll file processes = some file' ↔
      Writable processes ∧ file' = file ++ appended processes.flatten := by
  induction processes generalizing file with
  | nil =>
    rw [writeAll, List.flatten_nil, appended, List.flatMap_nil, List.append_nil, Option.some_inj]
    simp [Writable, eq_comm]
  | cons es processes ih =>
    have happ : appended (es :: processes).flatten = appended es ++ appended processes.flatten := by
      rw [List.flatten_cons, appended, List.flatMap_append]
      rfl
    rw [happ, ← List.append_assoc] at hsize ⊢
    have hes : (file ++ appended es).length < 2 ^ 32 := by
      rw [List.length_append] at hsize
      omega
    rw [writeAll, writeEntries_eq hes]
    by_cases hone : es.length ≤ 1 ∧ ∀ e ∈ es, e.majorID ≠ resIdNone
    · rw [if_pos hone]
      rw [ih hsize, Writable, Writable, List.forall_mem_cons, List.append_assoc]
      exact ⟨fun h => ⟨⟨hone, h.1⟩, h.2⟩, fun h => ⟨h.1.2, h.2⟩⟩
    · rw [if_neg hone]
      rw [Writable, List.forall_mem_cons]
      exact ⟨fun h => absurd h (by simp), fun h => absurd h.1.1 hone⟩

/-! ## Reading what has been written -/

/-- What the processes append is enumerated, in front of what has been there. -/
def Enumerates (initial : Str) (processes : List (List Entry)) : Prop :=
  ∃ file, writeAll initial processes = some file ∧
    ∀ (σ : Type) (id : UInt16) (fct : Call → σ → ℤ × σ) (arg : σ),
      (enumFileResources file id fct arg).map Outcome.result =
        visit id fct (fun arg => (enumFileResources initial id fct arg).map Outcome.result)
          (calls initial.length processes.flatten).reverse arg

/-- `lseek` reaches the last control area. -/
def LastOk (initial : Str) (es : List Entry) : Prop :=
  es ≠ [] → (initial ++ appended es).length < 2 ^ 31 + 16

theorem enumFileResources_eq {σ : Type} {file : Str} (h : file.length < 2 ^ 32 - 1) (id : UInt16)
    (fct : Call → σ → ℤ × σ) (arg : σ) : enumFileResources file id fct arg =
      enumLoop file id fct (file.length + 1) (UInt32.ofNat file.length) arg := by
  have hne : ¬ UInt32.ofNat file.length = 0xffffffff := ftell_ne h
  rw [enumFileResources]
  simp only [if_neg hne]

theorem lt_of_lastOk {initial : Str} {es : List Entry} (h : LastOk initial es) (hne : es ≠ []) :
    initial.length < 2 ^ 31 ∧ (initial ++ appended es).length < 2 ^ 31 + 16 := by
  have hlast := h hne
  refine ⟨?_, hlast⟩
  cases es with
  | nil => exact absurd rfl hne
  | cons e es =>
    rw [appended, List.flatMap_cons, List.length_append, List.length_append, entry_length] at hlast
    omega

theorem enumerates_of_ok {initial : Str} {processes : List (List Entry)}
    (hwrite : Writable processes) (hfirst : FirstOk initial processes.flatten)
    (hlast : LastOk initial processes.flatten)
    (hsize : (initial ++ appended processes.flatten).length < 2 ^ 32) :
    Enumerates initial processes := by
  refine ⟨initial ++ appended processes.flatten, (writeAll_some_iff hsize _).2 ⟨hwrite, rfl⟩, ?_⟩
  intro σ id fct arg
  by_cases hne : processes.flatten = []
  · rw [hne, appended, List.flatMap_nil, List.append_nil]
    rfl
  · obtain ⟨hinitial, hall⟩ := lt_of_lastOk hlast hne
    have hcalls := enumLoop_calls id fct hfirst [] hall (Nat.lt_succ_self _) arg
    have hrest : (fun arg : σ => (enumFileResources initial id fct arg).map Outcome.result) =
        fun arg => (enumLoop initial id fct (initial.length + 1)
          (UInt32.ofNat initial.length) arg).map Outcome.result := by
      funext arg
      rw [enumFileResources_eq (by omega)]
    rw [List.append_nil] at hcalls
    rw [hrest, enumFileResources_eq (by omega)]
    exact hcalls

section visit

variable {σ : Type} {id : UInt16} {fct : Call → σ → ℤ × σ} {rest : σ → Option (ℤ × σ)}

theorem visit_append (cs ds : List Call) (arg : σ) :
    visit id fct rest (cs ++ ds) arg = visit id fct (visit id fct rest ds) cs arg := by
  induction cs generalizing arg with
  | nil => rfl
  | cons c cs ih =>
    rw [List.cons_append, visit, visit]
    simp only [ih]

theorem visit_zero {cs : List Call} {arg : σ} (h : ∀ c ∈ cs, fct c arg = (0, arg)) :
    visit id fct rest cs arg = rest arg := by
  induction cs with
  | nil => rfl
  | cons c cs ih =>
    have hr : (if c.wanted id then fct c arg else (0, arg)) = (0, arg) := by
      rw [h c List.mem_cons_self, ite_self]
    rw [visit]
    simp only [hr, ne_eq, not_true_eq_false, if_false]
    exact ih fun d hd => h d (List.mem_cons_of_mem c hd)

end visit

theorem le_calls {start : ℕ} {es : List Entry} {c : Call} (hc : c ∈ calls start es) :
    start ≤ c.pos := by
  induction es generalizing start with
  | nil => exact absurd hc (by simp [calls])
  | cons e es ih =>
    rw [calls, List.mem_cons] at hc
    cases hc with
    | inl hc => rw [hc]; exact le_rfl
    | inr hc => exact (Nat.le_add_right _ _).trans (ih hc)

/-- `lseek` does not reach the control area at the end. -/
theorem nextResource_far {file : Str} {pos : UInt32} (h : 2 ^ 31 + 16 ≤ pos.toNat) :
    (nextResource file pos).1 = none := by
  have hle : ¬ pos ≤ controlSize := by
    rw [UInt32.le_iff_toNat_le, controlSize_toNat]
    omega
  have hseek : lseekFails (pos - controlSize) = true := by
    refine decide_eq_true ?_
    rw [toNat_sub (by rw [controlSize_toNat]; omega), controlSize_toNat]
    omega
  rw [nextResource, if_neg hle]
  simp only [hseek, if_true]

theorem enumLoop_none {σ : Type} {file : Str} {pos : UInt32} (h : (nextResource file pos).1 = none)
    (id : UInt16) (fct : Call → σ → ℤ × σ) (fuel : ℕ) (arg : σ) :
    (enumLoop file id fct (fuel + 1) pos arg).map Outcome.result = some (0, arg) := by
  rw [enumLoop]
  simp only [h]
  rfl

section necessary

variable {initial : Str} {processes : List (List Entry)}

theorem lastOk_of_enumerates (hsize : (initial ++ appended processes.flatten).length < 2 ^ 32)
    (h : Enumerates initial processes) : LastOk initial processes.flatten := by
  obtain ⟨file, hfile, henum⟩ := h
  obtain ⟨-, rfl⟩ := (writeAll_some_iff hsize file).1 hfile
  intro hne
  by_contra hlen
  -- a callback that stops at once is not called at all
  have hstop := henum Bool resIdAny (fun _ _ => (1, true)) false
  have hvisit : ∀ rest : Bool → Option (ℤ × Bool), visit resIdAny (fun _ _ => (1, true)) rest
      (calls initial.length processes.flatten).reverse false = some (1, true) := by
    intro rest
    rw [← List.dropLast_append_getLast hne, calls_concat, List.reverse_append,
      List.reverse_singleton, List.singleton_append, visit]
    simp [Call.wanted]
  have hcode : (enumFileResources (initial ++ appended processes.flatten) resIdAny
      (fun _ _ => (1, true)) false).map Outcome.result = some (0, false) := by
    rw [enumFileResources]
    split
    next => rfl
    next =>
      refine enumLoop_none (nextResource_far ?_) _ _ _ _
      rw [UInt32.toNat_ofNat_of_lt' hsize]
      omega
  rw [hvisit, hcode] at hstop
  exact absurd hstop (by decide)

theorem firstOk_of_enumerates (hsize : (initial ++ appended processes.flatten).length < 2 ^ 32)
    (h : Enumerates initial processes) : FirstOk initial processes.flatten := by
  have hlast := lastOk_of_enumerates hsize h
  obtain ⟨file, hfile, henum⟩ := h
  obtain ⟨-, rfl⟩ := (writeAll_some_iff hsize file).1 hfile
  intro e he
  by_contra hpos
  have hinitial : initial = [] := List.length_eq_zero_iff.1 (by omega)
  have hdata : e.data = [] := List.length_eq_zero_iff.1 (by omega)
  subst hinitial
  obtain ⟨es, hes⟩ : ∃ es, processes.flatten = e :: es := List.head?_eq_some_iff.1 he
  have hbytes : e.bytes.length = 16 := by rw [entry_length, hdata, List.length_nil]
  -- a callback that stops at the beginning of the file is not called there
  have hzero := henum Bool resIdAny (fun c b => if c.pos = 0 then (1, true) else (0, b)) false
  have hothers : ∀ c ∈ (calls 16 es).reverse,
      (fun (c : Call) (b : Bool) => if c.pos = 0 then ((1 : ℤ), true) else (0, b)) c false =
        (0, false) := by
    intro c hc
    have := le_calls (List.mem_reverse.1 hc)
    exact if_neg (by omega)
  have hvisit : ∀ rest : Bool → Option (ℤ × Bool), visit resIdAny
      (fun c b => if c.pos = 0 then (1, true) else (0, b)) rest
      (calls ([] : Str).length processes.flatten).reverse false = some (1, true) := by
    intro rest
    rw [hes, calls, List.reverse_cons, visit_append, hbytes, List.length_nil, Nat.zero_add,
      visit_zero hothers, visit]
    simp [Call.wanted, Entry.call]
  have happ : appended processes.flatten = e.bytes ++ appended es := by
    rw [hes]
    exact List.flatMap_cons
  have hcode : (enumFileResources ([] ++ appended processes.flatten) resIdAny
      (fun c b => if c.pos = 0 then (1, true) else (0, b)) false).map Outcome.result =
        some (0, false) := by
    have hall := (lt_of_lastOk hlast (by rw [hes]; simp)).2
    rw [List.nil_append, happ] at hall ⊢
    have hfirst : FirstOk e.bytes es := fun d _ => by omega
    have hcalls := enumLoop_calls resIdAny
      (fun c b => if c.pos = 0 then ((1 : ℤ), true) else (0, b)) hfirst [] hall
      (Nat.lt_succ_self _) false
    have hsixteen : (nextResource e.bytes (UInt32.ofNat 16)).1 = none := rfl
    rw [List.append_nil, hbytes, visit_zero hothers, enumLoop_none hsixteen] at hcalls
    rw [enumFileResources_eq (by omega)]
    exact hcalls
  rw [hvisit, hcode] at hzero
  exact absurd hzero (by decide)

end necessary

/-- **A file is enumerated as it has been written** if and only if no process writes two resources
or one with the ID `RES_ID_NONE`, the first control area is not the first thing in the file, and
`lseek` reaches the last one.  The walk through any file ends, and never goes forward. -/
theorem enumFileResources_iff {initial : Str} {processes : List (List Entry)}
    (hsize : (initial ++ appended processes.flatten).length < 2 ^ 32) :
    (Enumerates initial processes ↔ Writable processes ∧ FirstOk initial processes.flatten ∧
      LastOk initial processes.flatten) ∧
    ∀ (file : Str) (σ : Type) (id : UInt16) (fct : Call → σ → ℤ × σ) (arg : σ),
      ∃ o, enumFileResources file id fct arg = some o ∧
        (UInt32.ofNat file.length :: o.seeks).Pairwise (fun a b => b ≤ a) := by
  refine ⟨⟨fun h => ?_, fun h => enumerates_of_ok h.1 h.2.1 h.2.2 hsize⟩, ?_⟩
  · obtain ⟨file, hfile, -⟩ := id h
    exact ⟨((writeAll_some_iff hsize file).1 hfile).1, firstOk_of_enumerates hsize h,
      lastOk_of_enumerates hsize h⟩
  · intro file σ id fct arg
    have hle : (UInt32.ofNat file.length).toNat < file.length + 1 := by
      rw [UInt32.toNat_ofNat']
      exact Nat.lt_succ_of_le (Nat.mod_le _ _)
    rw [enumFileResources]
    split
    next => exact ⟨⟨0, arg, []⟩, rfl, List.pairwise_singleton _ _⟩
    next => exact enumLoop_ends hle arg

/-- Two processes, the second of which appends no data. -/
theorem enumerates_two : Enumerates [77, 90]
    [[⟨0, 6, [1, 2, 3]⟩], [⟨2, 0, []⟩]] :=
  (enumFileResources_iff (by decide)).1.2
    ⟨by simp [Writable, resIdNone], fun e he => by obtain rfl := Option.some.inj he; decide, fun _ => by decide⟩

/-- A process that writes two resources does not get to the second one. -/
theorem second_resource_aborts : ¬ ∀ (initial : Str) (processes : List (List Entry)),
    (initial ++ appended processes.flatten).length < 2 ^ 32 → Enumerates initial processes := by
  intro h
  obtain ⟨file, hfile, -⟩ := h [77, 90] [[⟨0, 6, [1]⟩, ⟨2, 0, [2]⟩]] (by decide)
  have hnone : writeAll [77, 90] [[⟨0, 6, [1]⟩, ⟨2, 0, [2]⟩]] = none := by decide
  rw [hnone] at hfile
  exact absurd hfile (by simp)

/-- A resource without data at the beginning of a file is not found. -/
example : (enumFileResources (Entry.bytes ⟨0, 6, []⟩) 0 (fun _ _ => (1, true)) false).map
    Outcome.result = some (0, false) := by decide

end Resource
end BurdahDos
