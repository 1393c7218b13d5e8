import BurdahDos.Config.Environ
import Mathlib

/-!
# What SET does to the environment

`master_env` holds a list of variables with different names at any time: `Master.Holds`.  A SET line
gives a variable its value, removes it, or changes nothing if there is no space for it.
-/

set_option autoImplicit false

namespace BurdahDos
namespace Config

open CString

/-! ## Variables -/

/-- A variable with its value. -/
structure Var where
  name : Str
  value : Str
  name_ne : 61 ∉ name
  name_nul : 0 ∉ name
  value_nul : 0 ∉ value

/-- The string in the environment. -/
def Var.text (v : Var) : Str := v.name ++ 61 :: v.value

theorem Var.text_nul (v : Var) : 0 ∉ v.text := by
  intro h
  rcases List.mem_append.1 h with h | h
  · exact v.name_nul h
  · rcases List.mem_cons.1 h with h | h
    · exact absurd h (by decide)
    · exact v.value_nul h

theorem Var.text_length (v : Var) : v.text.length = v.name.length + v.value.length + 1 := by
  rw [Var.text, List.length_append, List.length_cons]
  omega

/-- A variable begins with another name and `=` only if it is its own. -/
theorem Var.key_isPrefix (v : Var) {name : Str} (hname : 61 ∉ name) :
    name ++ [61] <+: v.text ↔ v.name = name := by
  constructor
  · rintro ⟨t, ht⟩
    have hword : ∀ (a : Str) (b : Str), 61 ∉ a → (a ++ 61 :: b).takeWhile (· ≠ 61) = a := by
      intro a b ha
      rw [List.takeWhile_append_of_pos]
      · simp
      · intro c hc
        simp only [decide_eq_true_eq]
        rintro rfl
        exact ha hc
    have h := congrArg (List.takeWhile (· ≠ 61)) ht
    rw [List.append_assoc, List.singleton_append, Var.text, hword _ _ hname,
      hword _ _ v.name_ne] at h
    exact h.symm
  · rintro rfl
    exact ⟨v.value, by simp [Var.text]⟩

/-- The strings of the variables, each with its zero. -/
def encode (vars : List Var) : Str := vars.flatMap fun v => v.text ++ [0]

@[simp] theorem encode_nil : encode [] = [] := rfl

@[simp] theorem encode_append (vars vars' : List Var) :
    encode (vars ++ vars') = encode vars ++ encode vars' := List.flatMap_append

@[simp] theorem encode_cons (v : Var) (vars : List Var) :
    encode (v :: vars) = v.text ++ 0 :: encode vars := by
  rw [encode, List.flatMap_cons, List.append_assoc]
  rfl

theorem length_le_encode (vars : List Var) : vars.length ≤ (encode vars).length := by
  induction vars with
  | nil => exact Nat.le_refl 0
  | cons v vars ih =>
    rw [encode_cons, List.length_append, List.length_cons, List.length_cons]
    omega

/-- What a name stands for. -/
def lookup (vars : List Var) (name : Str) : Option Str :=
  (vars.find? fun v => v.name = name).map Var.value

/-- The variables but for one. -/
def remove (vars : List Var) (name : Str) : List Var := vars.filter fun v => v.name ≠ name

theorem lookup_remove (vars : List Var) (name n : Str) :
    lookup (remove vars name) n = if n = name then none else lookup vars n := by
  induction vars with
  | nil => simp [lookup, remove]
  | cons v vars ih =>
    simp only [lookup, remove] at ih ⊢
    by_cases hv : v.name = name
    · rw [List.filter_cons_of_neg (by simp [hv]), ih]
      by_cases hn : n = name
      · rw [if_pos hn, if_pos hn]
      · rw [if_neg hn, if_neg hn, List.find?_cons_of_neg]
        simp only [decide_eq_true_eq]
        rintro rfl
        exact hn hv
    · rw [List.filter_cons_of_pos (by simp [hv])]
      by_cases hvn : v.name = n
      · have hn : n ≠ name := by
          rintro rfl
          exact hv hvn
        rw [List.find?_cons_of_pos (by simp [hvn]), List.find?_cons_of_pos (by simp [hvn]),
          if_neg hn]
      · rw [List.find?_cons_of_neg (by simp [hvn]), List.find?_cons_of_neg (by simp [hvn]), ih]

theorem lookup_concat (vars : List Var) (v : Var) (n : Str) (h : ∀ w ∈ vars, w.name ≠ v.name) :
    lookup (vars ++ [v]) n = if n = v.name then some v.value else lookup vars n := by
  rw [lookup, List.find?_append]
  by_cases hn : n = v.name
  · have hnone : vars.find? (fun w => w.name = n) = none := by
      rw [List.find?_eq_none]
      intro w hw
      simp only [decide_eq_true_eq]
      rw [hn]
      exact h w hw
    rw [if_pos hn, hnone, Option.none_or, List.find?_cons_of_pos (by simp [hn])]
    rfl
  · rw [if_neg hn, List.find?_cons_of_neg (by simp [Ne.symm hn]), List.find?_nil, Option.or_none,
      lookup]

/-- With different names, one variable is taken out of the list. -/
theorem remove_split {before after : List Var} {v : Var}
    (h : ((before ++ v :: after).map Var.name).Nodup) :
    remove (before ++ v :: after) v.name = before ++ after := by
  rw [List.map_append, List.map_cons, List.nodup_append] at h
  obtain ⟨-, hafter, hdisj⟩ := h
  have hkeep : ∀ vars : List Var, (∀ w ∈ vars, w.name ≠ v.name) → remove vars v.name = vars := by
    intro vars hvars
    rw [remove, List.filter_eq_self]
    intro w hw
    simpa using hvars w hw
  have hb : remove before v.name = before := hkeep before fun w hw =>
    hdisj w.name (List.mem_map_of_mem hw) v.name List.mem_cons_self
  have ha : remove after v.name = after := hkeep after fun w hw hne =>
    (List.nodup_cons.1 hafter).1 (hne ▸ List.mem_map_of_mem hw)
  rw [remove, List.filter_append, List.filter_cons_of_neg (by simp), ← remove, ← remove, hb, ha]

theorem remove_absent {vars : List Var} {name : Str} (h : ∀ v ∈ vars, v.name ≠ name) :
    remove vars name = vars := by
  rw [remove, List.filter_eq_self]
  intro w hw
  simpa using h w hw

theorem remove_name_ne {vars : List Var} {name : Str} :
    ∀ v ∈ remove vars name, v.name ≠ name := by
  intro v hv
  simpa using (List.mem_filter.1 hv).2

/-! ## What the environment holds -/

/-- `master_env` holds the variables, all of different names, and three zeros behind them that are
within its size; `envp` is at the first of these. -/
structure Master.Holds (m : Master) (vars : List Var) : Prop where
  size : m.env.length = masterSize
  bytes : ∃ rest, m.env = encode vars ++ 0 :: 0 :: 0 :: rest
  envp : m.envp = (encode vars).length
  names : (vars.map Var.name).Nodup

theorem Master.Holds.envp_le {m : Master} {vars : List Var} (h : m.Holds vars) :
    m.envp + 3 ≤ masterSize := by
  obtain ⟨rest, hrest⟩ := h.bytes
  have hlen := congrArg List.length hrest
  rw [h.size, List.length_append, List.length_cons, List.length_cons, List.length_cons] at hlen
  rw [h.envp]
  omega

theorem Master.start_holds : Master.start.Holds [] where
  size := List.length_replicate
  bytes := ⟨List.replicate 125 0, rfl⟩
  envp := rfl
  names := List.nodup_nil

/-! ## Copying -/

/-- Words that are copied towards the front are moved. -/
theorem copyWords_eq (n : ℕ) {b : Bytes} {d s : ℕ} (hds : d ≤ s) (hs : s + 2 * n ≤ b.length) :
    copyWords b n d s = write b d ((b.drop s).take (2 * n)) := by
  induction n generalizing b d s with
  | zero => rw [copyWords, Nat.mul_zero, List.take_zero, write_nil (by omega)]
  | succ n ih =>
    have hlo : s < b.length := by omega
    have hhi : s + 1 < b.length := by omega
    have hw := @write_of_le b d [b[s], b[s + 1]] (by simp; omega)
    generalize b.take d ++ [b[s], b[s + 1]] ++ b.drop (d + [b[s], b[s + 1]].length) = b' at hw
    have hlen := length_write hw
    have hdrop : b'.drop (s + 2) = b.drop (s + 2) := drop_write_of_le hw (by simp; omega)
    have hcons : (b.drop s).take (2 * (n + 1)) =
        [b[s], b[s + 1]] ++ (b.drop (s + 2)).take (2 * n) := by
      rw [List.drop_eq_getElem_cons hlo, List.drop_eq_getElem_cons hhi, Nat.mul_succ]
      rfl
    rw [copyWords, List.getElem?_eq_getElem hlo, List.getElem?_eq_getElem hhi]
    simp only [hw, Option.bind_some]
    rw [ih (by omega) (by omega), hdrop, hcons]
    exact write_write hw

/-- **A copy towards the front** moves the bytes, also if they overlap. -/
theorem fmemcpy_eq {b : Bytes} {d s n : ℕ} (hds : d ≤ s) (hs : s + n ≤ b.length) :
    fmemcpy b d s n = memmove b d s n := by
  have hwords := copyWords_eq (n / 2) hds (b := b) (by omega)
  rw [fmemcpy, memmove, if_pos hs, hwords]
  by_cases hodd : n % 2 = 0
  · have hn : 2 * (n / 2) = n := by omega
    simp only [hodd, if_true, hn]
    exact Option.bind_fun_some _
  · have hn : n = 2 * (n / 2) + 1 := by omega
    have hlen : ((b.drop s).take (2 * (n / 2))).length = n / 2 * 2 := by
      rw [List.length_take, List.length_drop]
      omega
    have hw := @write_of_le b d ((b.drop s).take (2 * (n / 2))) (by omega)
    generalize b.take d ++ (b.drop s).take (2 * (n / 2)) ++
      b.drop (d + ((b.drop s).take (2 * (n / 2))).length) = b' at hw
    have hlast : s + n / 2 * 2 < b.length := by omega
    have hget : b'[s + n / 2 * 2]? = some b[s + n / 2 * 2] := by
      rw [get_write_of_le hw (by omega), List.getElem?_eq_getElem hlast]
    have hsnoc : (b.drop s).take n =
        (b.drop s).take (2 * (n / 2)) ++ [b[s + n / 2 * 2]] := by
      conv_lhs => rw [hn, List.take_add_one]
      rw [List.getElem?_drop, Nat.mul_comm 2, List.getElem?_eq_getElem hlast]
      rfl
    simp only [hw, Option.bind_some, hodd, if_false, hget]
    rw [hsnoc, ← write_write hw, hlen]
    rfl

/-! ## Reading the environment -/

theorem fmemcmpEq_text {s : Str} {key : Str} (rest : Str) (hkey : 0 ∉ key) :
    fmemcmpEq (s ++ 0 :: rest) key = some (decide (key <+: s)) := by
  induction key generalizing s with
  | nil => cases s <;> rfl
  | cons c key ih =>
    have hc : c ≠ 0 := fun h => hkey (h ▸ List.mem_cons_self)
    have hkey' : 0 ∉ key := fun h => hkey (List.mem_cons_of_mem _ h)
    cases s with
    | nil =>
      rw [List.nil_append, fmemcmpEq, if_neg (Ne.symm hc)]
      simp
    | cons x s =>
      rw [List.cons_append, fmemcmpEq]
      by_cases hx : x = c
      · rw [if_pos hx, ih hkey', hx]
        simp [List.cons_prefix_cons]
      · rw [if_neg hx]
        simp [List.cons_prefix_cons, Ne.symm hx]

theorem fstrlen_text {front s rest : Str} (hs : 0 ∉ s) :
    fstrlen (front ++ (s ++ 0 :: rest)) front.length = some s.length := by
  have h : Holds (front ++ (s ++ 0 :: rest)) front.length s := by
    have := holds_append front rest hs
    simpa using this
  rw [fstrlen, h.str]
  rfl

/-- **The loop of `searchvar`** from a variable on: it stops at the first one of the name. -/
theorem searchLoop_spec {name : Str} (hname : 61 ∉ name) (hnul : 0 ∉ name) (rest : Str)
    (vars : List Var) (front : List Var) (hvars : vars ≠ []) {fuel : ℕ}
    (hfuel : vars.length ≤ fuel) :
    (∃ before v after, vars = before ++ v :: after ∧ v.name = name ∧
      searchLoop (encode front ++ (encode vars ++ 0 :: rest)) (name ++ [61]) fuel
        (encode front).length = some (some (encode (front ++ before)).length)) ∨
    ((∀ v ∈ vars, v.name ≠ name) ∧
      searchLoop (encode front ++ (encode vars ++ 0 :: rest)) (name ++ [61]) fuel
        (encode front).length = some none) := by
  have hkey : 0 ∉ name ++ [61] := by simpa using hnul
  induction vars generalizing front fuel with
  | nil => exact absurd rfl hvars
  | cons v vars ih =>
    obtain ⟨fuel, rfl⟩ : ∃ k, fuel = k + 1 := ⟨fuel - 1, by simp at hfuel; omega⟩
    have hsplit : encode front ++ (encode (v :: vars) ++ 0 :: rest) =
        encode front ++ (v.text ++ 0 :: (encode vars ++ 0 :: rest)) := by
      rw [encode_cons, List.append_assoc, List.cons_append]
    have hcmp : fmemcmpEq ((encode front ++ (encode (v :: vars) ++ 0 :: rest)).drop
        (encode front).length) (name ++ [61]) = some (decide (v.name = name)) := by
      rw [List.drop_left, encode_cons, List.append_assoc, List.cons_append,
        fmemcmpEq_text _ hkey]
      simp only [v.key_isPrefix hname]
    rw [searchLoop, hcmp]
    by_cases hv : v.name = name
    · simp only [hv, decide_true]
      exact .inl ⟨[], v, vars, rfl, hv, by simp⟩
    · simp only [hv, decide_false]
      have hnext : encode front ++ (encode (v :: vars) ++ 0 :: rest) =
          encode (front ++ [v]) ++ (encode vars ++ 0 :: rest) := by
        rw [hsplit, encode_append, encode_cons, encode_nil]
        simp
      have hpos : (encode front).length + (v.text.length + 1) = (encode (front ++ [v])).length := by
        simp
      rw [hsplit, fstrlen_text v.text_nul, Option.bind_some, ← hsplit, hnext, hpos,
        List.getElem?_append_right (Nat.le_refl _), Nat.sub_self]
      cases vars with
      | nil =>
        refine .inr ⟨?_, by simp⟩
        intro w hw
        rw [List.mem_singleton.1 hw]
        exact hv
      | cons w vars =>
        obtain ⟨c, s, hcs⟩ : ∃ c s, w.text = c :: s := by
          cases ht : w.text with
          | nil =>
            have := w.text_length
            rw [ht] at this
            simp at this
          | cons c s => exact ⟨c, s, rfl⟩
        have hc : c ≠ 0 := by
          rintro rfl
          exact w.text_nul (hcs ▸ List.mem_cons_self)
        have hhead : (encode (w :: vars) ++ 0 :: rest)[0]? = some c := by
          rw [encode_cons, hcs]
          rfl
        rw [hhead]
        simp only [ne_eq, hc, not_false_eq_true, if_true]
        rcases ih (front ++ [v]) (by simp) (by simp at hfuel ⊢; omega) with
          ⟨before, u, after, hsp, hu, hrun⟩ | ⟨hall, hrun⟩
        · refine .inl ⟨v :: before, u, after, by rw [hsp]; rfl, hu, ?_⟩
          rw [hrun]
          simp
        · refine .inr ⟨?_, hrun⟩
          intro u hu
          rcases List.mem_cons.1 hu with rfl | hu
          · exact hv
          · exact hall u hu

section
variable {m : Master} {vars : List Var}

/-- `searchvar` finds a variable if there is one of the name. -/
theorem Master.Holds.searchvar (h : m.Holds vars) {name : Str} (hname : 61 ∉ name)
    (hnul : 0 ∉ name) :
    (∃ before v after, vars = before ++ v :: after ∧ v.name = name ∧
      searchvar m.env (name ++ [61]) = some (some (encode before).length)) ∨
    ((∀ v ∈ vars, v.name ≠ name) ∧ searchvar m.env (name ++ [61]) = some none) := by
  obtain ⟨rest, hrest⟩ := h.bytes
  rw [Config.searchvar, hrest]
  cases hv : vars with
  | nil =>
    refine .inr ⟨fun v hv => absurd hv (List.not_mem_nil), ?_⟩
    have hcmp := @fmemcmpEq_text [] (name ++ [61]) (0 :: 0 :: rest) (by simpa using hnul)
    have hne : ¬ name ++ [61] <+: [] := by simp
    simp only [hne, decide_false, List.nil_append] at hcmp
    have hlen := @fstrlen_text [] [] (0 :: 0 :: rest) (by simp)
    simp only [List.nil_append, List.length_nil] at hlen
    rw [searchLoop, encode_nil, List.nil_append, List.drop_zero, hcmp]
    simp only [hlen, Option.bind_some]
    simp
  | cons v vs =>
    have hle := length_le_encode vars
    have hsize := h.envp_le
    rw [h.envp] at hsize
    have hfuel : (v :: vs).length ≤ masterSize + 1 := by
      rw [← hv]
      omega
    have hrun := searchLoop_spec hname hnul (0 :: 0 :: rest) (v :: vs) [] (by simp) hfuel
    simp only [encode_nil, List.nil_append, List.length_nil] at hrun
    exact hrun

/-- `deletevar` takes a variable out of the list. -/
theorem Master.Holds.deletevar {before after : List Var} {v : Var}
    (h : m.Holds (before ++ v :: after)) :
    ∃ m', deletevar m (some (encode before).length) = some m' ∧ m'.Holds (before ++ after) := by
  obtain ⟨rest, hrest⟩ := h.bytes
  have hle := h.envp_le
  have hfront : m.env = encode before ++ (v.text ++ 0 ::
      (encode after ++ [0, 0, 0] ++ rest)) := by
    rw [hrest]
    simp
  have hlen : fstrlen m.env (encode before).length = some v.text.length := by
    rw [hfront]
    exact fstrlen_text v.text_nul
  have henvp : m.envp = (encode before).length + (v.text.length + 1) + (encode after).length := by
    rw [h.envp]
    simp
    omega
  have hcount : (m.envp + 3 + 65536 - ((encode before).length + (v.text.length + 1))) % 65536 =
      (encode after ++ [0, 0, 0]).length := by
    have hms : masterSize = 128 := rfl
    rw [henvp, List.length_append]
    simp only [List.length_cons, List.length_nil]
    omega
  have hdrop : (m.env.drop ((encode before).length + (v.text.length + 1))).take
      (encode after ++ [0, 0, 0]).length = encode after ++ [0, 0, 0] := by
    rw [hfront, ← List.drop_drop, List.drop_left, show v.text.length + 1 = (v.text ++ [0]).length
      by simp, show v.text ++ 0 :: (encode after ++ [0, 0, 0] ++ rest) =
        (v.text ++ [0]) ++ (encode after ++ [0, 0, 0] ++ rest) by simp, List.drop_left,
      List.take_left]
  have hin : (encode before).length + (v.text.length + 1) + (encode after ++ [0, 0, 0]).length ≤
      m.env.length := by
    rw [h.size, List.length_append, List.length_cons, List.length_cons, List.length_cons,
      List.length_nil]
    omega
  have hw := @write_of_le m.env (encode before).length (encode after ++ [0, 0, 0]) (by omega)
  have hcopy := fmemcpy_eq (b := m.env) (Nat.le_add_right (encode before).length
    (v.text.length + 1)) hin
  rw [memmove, if_pos hin, hdrop, hw] at hcopy
  refine ⟨⟨m.env.take (encode before).length ++ (encode after ++ [0, 0, 0]) ++
    m.env.drop ((encode before).length + (encode after ++ [0, 0, 0]).length),
    m.envp - (v.text.length + 1)⟩, ?_, ?size, ?bytes, ?envp, ?names⟩
  · rw [Config.deletevar, hlen]
    simp only [Option.bind_some, hcount, hcopy]
  case size =>
    rw [← h.size]
    exact length_write hw
  case bytes =>
    refine ⟨m.env.drop ((encode before).length + (encode after ++ [0, 0, 0]).length), ?_⟩
    conv_lhs => rw [hfront]
    rw [List.take_left, ← hfront]
    simp
  case envp =>
    change m.envp - (v.text.length + 1) = _
    rw [henvp, encode_append, List.length_append]
    omega
  case names =>
    refine List.Nodup.sublist ?_ h.names
    exact List.Sublist.map _ (List.Sublist.append_left (List.sublist_cons_self v after) before)

/-- A variable is put at the end. -/
theorem Master.Holds.append (h : m.Holds vars) (v : Var) (hnew : ∀ w ∈ vars, w.name ≠ v.name)
    (hfit : m.envp + (v.text.length + 1) + 3 ≤ masterSize) :
    ∃ m', m.append v.text = some m' ∧ m'.Holds (vars ++ [v]) := by
  obtain ⟨rest, hrest⟩ := h.bytes
  have hw1 := @write_of_le m.env m.envp (v.text ++ [0])
    (by rw [h.size, List.length_append, List.length_singleton]; omega)
  generalize hb1 : m.env.take m.envp ++ (v.text ++ [0]) ++
    m.env.drop (m.envp + (v.text ++ [0]).length) = b1 at hw1
  have hl1 := length_write hw1
  have hpos : m.envp + (v.text.length + 1) = m.envp + (v.text ++ [0]).length := by simp
  have hw4 := @write_of_le m.env m.envp (v.text ++ [0] ++ [0] ++ [0] ++ [0]) (by
    rw [h.size]
    simp only [List.length_append, List.length_singleton]
    omega)
  have hstore : ∀ (s : Str) (k : ℕ) (b : Bytes), write m.env m.envp s = some b →
      k = m.envp + s.length → store b k 0 = write m.env m.envp (s ++ [0]) := by
    intro s k b hb hk
    rw [store, hk, write_write hb]
  have hsome : ∀ s : Str, s.length ≤ v.text.length + 4 → ∃ b, write m.env m.envp s = some b := by
    intro s hs
    exact ⟨_, write_of_le (by rw [h.size]; omega)⟩
  obtain ⟨b2, hb2⟩ := hsome (v.text ++ [0] ++ [0]) (by simp)
  obtain ⟨b3, hb3⟩ := hsome (v.text ++ [0] ++ [0] ++ [0]) (by simp)
  refine ⟨⟨m.env.take m.envp ++ (v.text ++ [0] ++ [0] ++ [0] ++ [0]) ++
    m.env.drop (m.envp + (v.text ++ [0] ++ [0] ++ [0] ++ [0]).length),
    m.envp + (v.text.length + 1)⟩, ?_, ?size, ?bytes, ?envp, ?names⟩
  · rw [Master.append, strcpy, hw1]
    simp only [Option.bind_some]
    rw [hstore _ _ _ hw1 (by simp), hb2, Option.bind_some,
      hstore _ _ _ hb2 (by simp [Nat.add_assoc]), hb3, Option.bind_some,
      hstore _ _ _ hb3 (by simp [Nat.add_assoc]), hw4, Option.bind_some]
  case size =>
    rw [← h.size]
    exact length_write hw4
  case bytes =>
    refine ⟨m.env.drop (m.envp + (v.text ++ [0] ++ [0] ++ [0] ++ [0]).length), ?_⟩
    have hfront : m.env.take m.envp = encode vars := by
      rw [hrest, h.envp, List.take_left]
    simp [hfront]
  case envp =>
    rw [h.envp, encode_append, List.length_append, encode_cons, encode_nil]
    simp
  case names =>
    rw [List.map_append, List.nodup_append]
    refine ⟨h.names, List.nodup_singleton _, ?_⟩
    intro a ha b hb hab
    obtain ⟨w, hw, rfl⟩ := List.mem_map.1 ha
    obtain ⟨u, hu, rfl⟩ := List.mem_map.1 hb
    rw [List.mem_singleton.1 hu] at hab
    exact hnew w hw hab

end

/-! ## One line -/

/-- There is space for the variables, the new one with its zero, and the three zeros. -/
def Fits (vars : List Var) (name value : Str) : Prop :=
  (encode (remove vars name)).length + (name.length + 1 + value.length + 1) + 3 ≤ masterSize

/-- What a SET line does. -/
structure Effect (pLine : Str) (m m' : Master) (vars vars' : List Var) : Prop where
  invalid : assignment pLine = none → m' = m
  /-- An empty value removes the variable. -/
  delete : ∀ name, assignment pLine = some (name, []) →
    ∀ n, lookup vars' n = if n = name then none else lookup vars n
  /-- A value that fits is the variable's, and no other changes. -/
  fits : ∀ name value, assignment pLine = some (name, value) → value ≠ [] → Fits vars name value →
    ∀ n, lookup vars' n = if n = name then some value else lookup vars n
  full : ∀ name value, assignment pLine = some (name, value) → value ≠ [] →
    ¬ Fits vars name value → m' = m

theorem toupper_ne {c d : UInt8} (hd : d < 65) (h : c ≠ d) : toupper c ≠ d := by
  rw [toupper]
  split
  · rename_i hrange
    intro hc
    have hsub := congrArg UInt8.toNat hc
    have h97 : (97 : UInt8).toNat = 97 := rfl
    have h122 : (122 : UInt8).toNat = 122 := rfl
    have h32 : (32 : UInt8).toNat = 32 := rfl
    have h65 : (65 : UInt8).toNat = 65 := rfl
    rw [UInt8.toNat_sub, h32] at hsub
    rw [UInt8.le_iff_toNat_le, UInt8.le_iff_toNat_le, h97, h122] at hrange
    rw [UInt8.lt_iff_toNat_lt, h65] at hd
    omega
  · exact h

theorem strupr_not_mem {s : Str} {d : UInt8} (hd : d < 65) (h : d ∉ s) : d ∉ strupr s := by
  intro hmem
  obtain ⟨c, hc, hcd⟩ := List.mem_map.1 hmem
  exact toupper_ne hd (fun hne => h (hne ▸ hc)) hcd

theorem skipwh_subset {s : Str} {c : UInt8} (h : c ∈ skipwh s) : c ∈ s :=
  (List.dropWhile_suffix _).subset h

theorem skipMark_subset {s : Str} {c : UInt8} (h : c ∈ skipMark s) : c ∈ s := by
  unfold skipMark at h
  split at h
  · exact List.mem_cons_of_mem _ (skipwh_subset h)
  · exact h

/-- The word has no `=` in it, and all that `scan` returns is from the line. -/
theorem scan_word (s : Str) : 61 ∉ (scan s).1 ∧ (∀ c ∈ (scan s).1, c ∈ s) ∧
    ∀ c ∈ (scan s).2, c ∈ s := by
  have hsub : ∀ c ∈ skipMark (skipwh s), c ∈ s := fun c hc => skipwh_subset (skipMark_subset hc)
  rw [scan]
  split
  · rename_i t heq
    rw [heq] at hsub
    refine ⟨fun h => absurd (List.mem_singleton.1 h) (by decide), ?_, ?_⟩
    · intro c hc
      rw [List.mem_singleton.1 hc]
      exact hsub _ List.mem_cons_self
    · intro c hc
      exact hsub _ (List.mem_cons_of_mem _ hc)
  · refine ⟨?_, ?_, ?_⟩
    · intro h
      have := List.mem_takeWhile_imp (List.mem_of_mem_filter h)
      exact absurd this (by decide)
    · intro c hc
      exact hsub c ((List.takeWhile_prefix _).subset (List.mem_of_mem_filter hc))
    · intro c hc
      exact hsub c ((List.dropWhile_suffix _).subset hc)

theorem takeWhile_inWord {gap rest : Str} (hgap : ∀ c ∈ gap, iswh c = true) :
    (gap ++ 61 :: rest).takeWhile inWord = [] := by
  cases gap with
  | nil => rfl
  | cons c gap =>
    have hc : inWord c = false := by simp [inWord, hgap c List.mem_cons_self]
    rw [List.cons_append, List.takeWhile_cons_of_neg (by simp [hc])]

theorem skipMark_cons {c : UInt8} (h : c ≠ 33) (s : Str) : skipMark (c :: s) = c :: s := by
  unfold skipMark
  split
  · rename_i heq
    exact absurd (List.cons.inj heq).1 h
  · rfl

/-- **`NAME=value`** gives the name in upper case and the value, without the white space in front of
the one and the other and the `=`. -/
theorem assignment_eq {front gap name value : Str} {c : UInt8} (hfront : ∀ d ∈ front, iswh d = true)
    (hgap : ∀ d ∈ gap, iswh d = true) (hname : ∀ d ∈ c :: name, inWord d = true ∧ d ≠ 63)
    (hmark : c ≠ 33) (hremark : c ≠ 59) :
    assignment (front ++ (c :: name ++ (gap ++ 61 :: value))) =
      some (strupr (c :: name), skipwh value) := by
  have hword : ∀ d ∈ c :: name, inWord d = true := fun d hd => (hname d hd).1
  have hc : iswh c = false := by
    have := hword c List.mem_cons_self
    rw [inWord, Bool.and_eq_true, Bool.not_eq_true'] at this
    exact this.1
  have hskip : skipwh (front ++ (c :: name ++ (gap ++ 61 :: value))) =
      c :: (name ++ (gap ++ 61 :: value)) := by
    rw [skipwh, List.dropWhile_append_of_pos hfront, List.cons_append,
      List.dropWhile_cons_of_neg (by simp [hc])]
  have hfilter : (c :: name).filter (· ≠ 63) = c :: name := by
    rw [List.filter_eq_self]
    exact fun d hd => by simpa using (hname d hd).2
  have hscan : scan (front ++ (c :: name ++ (gap ++ 61 :: value))) =
      (c :: name, gap ++ 61 :: value) := by
    rw [scan, hskip, skipMark_cons hmark]
    split
    · rename_i heq
      exact absurd (List.cons.inj heq).1 hremark
    · rw [← List.cons_append, List.takeWhile_append_of_pos hword,
        List.dropWhile_append_of_pos hword, takeWhile_inWord hgap, List.append_nil, hfilter]
      refine Prod.ext rfl ?_
      have hall := @List.takeWhile_append_dropWhile _ inWord (gap ++ 61 :: value)
      rwa [takeWhile_inWord hgap, List.nil_append] at hall
  rw [assignment, hscan, skipwh, List.dropWhile_append_of_pos hgap]
  rfl

/-- What a SET line names could be a variable. -/
theorem assignment_var {pLine name value : Str} (hline : 0 ∉ pLine)
    (h : assignment pLine = some (name, value)) : 61 ∉ name ∧ 0 ∉ name ∧ 0 ∉ value := by
  obtain ⟨hword, hname, hrest⟩ := scan_word pLine
  rw [assignment] at h
  split at h
  · rename_i rest heq
    rw [Option.some_inj, Prod.mk.injEq] at h
    obtain ⟨rfl, rfl⟩ := h
    refine ⟨strupr_not_mem (by decide) hword,
      strupr_not_mem (by decide) fun h0 => hline (hname 0 h0), fun h0 => hline (hrest 0 ?_)⟩
    exact skipwh_subset (heq ▸ List.mem_cons_of_mem _ (skipwh_subset h0))
  · exact absurd h (by simp)

theorem Master.Holds.oldSize {m : Master} {before after : List Var} {v : Var}
    (h : m.Holds (before ++ v :: after)) :
    oldSize m.env (some (encode before).length) = some (v.text.length + 1) := by
  obtain ⟨rest, hrest⟩ := h.bytes
  have hfront : m.env = encode before ++ (v.text ++ 0 ::
      (encode after ++ 0 :: 0 :: 0 :: rest)) := by
    rw [hrest]
    simp
  rw [Config.oldSize, hfront, fstrlen_text v.text_nul]
  rfl

/-- **What is done with a variable and its value**: it is removed, or put at the end if there is
space without the old one, or nothing changes. -/
theorem Master.Holds.assign {m : Master} {vars : List Var} (h : m.Holds vars) (v : Var) :
    ∃ m', assign m v.name v.value = some m' ∧
      ((v.value = [] ∧ m'.Holds (remove vars v.name)) ∨
        (v.value ≠ [] ∧ Fits vars v.name v.value ∧ m'.Holds (remove vars v.name ++ [v])) ∨
        (v.value ≠ [] ∧ ¬ Fits vars v.name v.value ∧ m' = m)) := by
  have htext : v.name ++ [61] ++ v.value = v.text := by simp [Var.text]
  have hempty : v.text.length = v.name.length + 1 ↔ v.value = [] := by
    rw [v.text_length, ← List.length_eq_zero_iff]
    omega
  -- what the search finds, how much of it is freed and what deleting it leaves
  obtain ⟨pp, old, m₀, hsearch, hold, hdelete, hm₀, henvp⟩ : ∃ pp old, ∃ m₀ : Master,
      Config.searchvar m.env (v.name ++ [61]) = some pp ∧ Config.oldSize m.env pp = some old ∧
      Config.deletevar m pp = some m₀ ∧ m₀.Holds (remove vars v.name) ∧ m.envp = m₀.envp + old := by
    rcases h.searchvar v.name_ne v.name_nul with ⟨before, w, after, rfl, hw, hs⟩ | ⟨hall, hs⟩
    · obtain ⟨m₀, hd, hm₀⟩ := h.deletevar
      refine ⟨_, _, m₀, hs, h.oldSize, hd, ?_, ?_⟩
      · rw [← hw, remove_split h.names]
        exact hm₀
      · rw [h.envp, hm₀.envp]
        simp
        omega
    · refine ⟨none, 0, m, hs, rfl, rfl, ?_, rfl⟩
      rw [remove_absent hall]
      exact h
  have hfits : (v.text.length : ℤ) < masterSize - (m.envp - old) - 1 - 2 ↔
      m₀.envp + (v.text.length + 1) + 3 ≤ masterSize := by
    have hle := hm₀.envp_le
    omega
  have hfits' : Fits vars v.name v.value ↔ m₀.envp + (v.text.length + 1) + 3 ≤ masterSize := by
    rw [Fits, hm₀.envp, v.text_length]
    omega
  rw [Config.assign, hsearch, Option.bind_some]
  simp only [htext]
  by_cases hval : v.value = []
  · rw [if_pos (hempty.2 hval)]
    exact ⟨m₀, hdelete, .inl ⟨hval, hm₀⟩⟩
  · rw [if_neg (fun he => hval (hempty.1 he)), hold, Option.bind_some]
    by_cases hf : Fits vars v.name v.value
    · obtain ⟨m₁, ha, hm₁⟩ := hm₀.append v remove_name_ne (hfits'.1 hf)
      rw [if_pos (hfits.2 (hfits'.1 hf)), hdelete, Option.bind_some]
      exact ⟨m₁, ha, .inr (.inl ⟨hval, hf, hm₁⟩)⟩
    · rw [if_neg fun hlt => hf (hfits'.2 (hfits.1 hlt))]
      exact ⟨m, rfl, .inr (.inr ⟨hval, hf, rfl⟩)⟩

/-- **One SET line**, of whatever length. -/
theorem Master.Holds.cmdSet {m : Master} {vars : List Var} (h : m.Holds vars) {pLine : Str}
    (hline : 0 ∉ pLine) :
    ∃ m' vars', cmdSet m pLine = some m' ∧ m'.Holds vars' ∧ Effect pLine m m' vars vars' := by
  rw [Config.cmdSet]
  cases ha : assignment pLine with
  | none => exact ⟨m, vars, rfl, h, fun _ => rfl, by simp [ha], by simp [ha], by simp [ha]⟩
  | some p =>
    obtain ⟨name, value⟩ := p
    obtain ⟨hne, hnul, hvalue⟩ := assignment_var hline ha
    have heq : ∀ {name' value'}, assignment pLine = some (name', value') →
        name' = name ∧ value' = value := by
      intro name' value' h'
      rw [ha, Option.some_inj, Prod.mk.injEq] at h'
      exact ⟨h'.1.symm, h'.2.symm⟩
    have hsome : assignment pLine ≠ none := by simp [ha]
    obtain ⟨m', hrun, hcase⟩ := h.assign ⟨name, value, hne, hnul, hvalue⟩
    rcases hcase with ⟨hval, hm'⟩ | ⟨hval, hf, hm'⟩ | ⟨hval, hf, rfl⟩
    · refine ⟨m', _, hrun, hm', fun hn => absurd hn hsome, ?_, ?_, ?_⟩
      · intro name' h' n
        rw [(heq h').1]
        exact lookup_remove vars name n
      · intro name' value' h' hv
        exact absurd ((heq h').2.trans hval) hv
      · intro name' value' h' hv
        exact absurd ((heq h').2.trans hval) hv
    · refine ⟨m', _, hrun, hm', fun hn => absurd hn hsome, ?_, ?_, ?_⟩
      · intro name' h'
        exact absurd (heq h').2.symm hval
      · intro name' value' h' _ _ n
        obtain ⟨rfl, rfl⟩ := heq h'
        rw [lookup_concat _ _ _ remove_name_ne, lookup_remove]
        by_cases hn : n = name'
        · rw [if_pos hn, if_pos hn]
        · rw [if_neg hn, if_neg hn, if_neg hn]
      · intro name' value' h' _ hfull
        obtain ⟨rfl, rfl⟩ := heq h'
        exact absurd hf hfull
    · refine ⟨m', vars, hrun, h, fun hn => absurd hn hsome, ?_, ?_, fun _ _ _ _ _ => rfl⟩
      · intro name' h'
        exact absurd (heq h').2.symm hval
      · intro name' value' h' _ hfits
        obtain ⟨rfl, rfl⟩ := heq h'
        exact absurd hfits hf

/-! ## All lines -/

/-- The variable that `DoMenu` exports. -/
def configVar (menuSelected : UInt8) : Var where
  name := [67, 79, 78, 70, 73, 71]
  value := if menuSelected + 48 = 0 then [] else [menuSelected + 48]
  name_ne := by decide
  name_nul := by decide
  value_nul := by
    split
    · exact List.not_mem_nil
    · rename_i h
      exact fun h0 => h (List.mem_singleton.1 h0).symm

theorem doMenu_holds (menu : Option UInt8) : ∃ m vars, doMenu menu = some m ∧ m.Holds vars := by
  cases menu with
  | none => exact ⟨_, _, rfl, Master.start_holds⟩
  | some menuSelected =>
    have hlen : (configVar menuSelected).text.length ≤ 8 := by
      rw [Var.text_length]
      change 6 + (if menuSelected + 48 = 0 then [] else [menuSelected + 48]).length + 1 ≤ 8
      split <;> simp
    obtain ⟨m, hm, hholds⟩ := Master.start_holds.append (configVar menuSelected)
      (fun w hw => absurd hw List.not_mem_nil) (by
        have hms : masterSize = 128 := rfl
        have hstart : Master.start.envp = 0 := rfl
        omega)
    exact ⟨m, _, hm, hholds⟩

theorem cmdSets_concat (menu : Option UInt8) (lines : List Line) (line : Line) :
    cmdSets menu (lines ++ [line]) = (cmdSets menu lines).bind fun m => cmdSet m line.text := by
  cases hm : doMenu menu with
  | none => rw [cmdSets, cmdSets, hm, Option.bind_none, Option.bind_none, Option.bind_none]
  | some m =>
    rw [cmdSets, cmdSets, hm, Option.bind_some, Option.bind_some, List.foldlM_append]
    exact Option.bind_congr fun m' _ => by simp

/-- **The environment is a list of variables with different names at any time**, and any SET line
that comes next does what it says to it. -/
theorem cmdSets_holds (menu : Option UInt8) (lines : List Line) :
    ∃ m vars, cmdSets menu lines = some m ∧ m.Holds vars ∧
      ∀ line : Line, ∃ m' vars', cmdSets menu (lines ++ [line]) = some m' ∧ m'.Holds vars' ∧
        Effect line.text m m' vars vars' := by
  have hrun : ∀ lines : List Line, ∃ m vars, cmdSets menu lines = some m ∧ m.Holds vars := by
    intro lines
    induction lines using List.reverseRecOn with
    | nil =>
      obtain ⟨m, vars, hm, hholds⟩ := doMenu_holds menu
      refine ⟨m, vars, ?_, hholds⟩
      rw [cmdSets, hm]
      rfl
    | append_singleton lines line ih =>
      obtain ⟨m, vars, hm, hholds⟩ := ih
      obtain ⟨m', vars', hstep, hholds', -⟩ := hholds.cmdSet line.nonul
      exact ⟨m', vars', by rw [cmdSets_concat, hm, Option.bind_some, hstep], hholds'⟩
  obtain ⟨m, vars, hm, hholds⟩ := hrun lines
  refine ⟨m, vars, hm, hholds, ?_⟩
  intro line
  obtain ⟨m', vars', hstep, hholds', heffect⟩ := hholds.cmdSet line.nonul
  exact ⟨m', vars', by rw [cmdSets_concat, hm, Option.bind_some, hstep], hholds', heffect⟩

end Config
end BurdahDos
