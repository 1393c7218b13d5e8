import BurdahDos.Listing.Defs
import Mathlib

/-!
# The keys of /O

What a text behind `/O` asks for, and what `scanOrder` makes of it.

* `marks` reads the text, and `scanLoop_eq_marks` says that the loop takes one mark after the other.
* `wanted` is what is left of the marks: those after the last `U`, of these the last `G`, and each
  key where it is last.
* `Holds` connects it to `optOdir` and `optOorderby`, and `scanOrder_holds` is the result.  A key
  may not come twice in a row: the loop that moves a key skips the element behind it, so that a 0
  stays in the middle of the array.  In front of a `U` this does not matter for the order, but
  a store outside of the array may be left of it (`scanOrder_inside`).
-/

set_option autoImplicit false

namespace BurdahDos
namespace Listing

/-! ## What the text says -/

inductive Key where
  | size
  | date
  | name
  | ext
deriving DecidableEq

def Key.option : Key → UInt8
  | .size => orderBySize
  | .date => orderByDate
  | .name => orderByName
  | .ext => orderByExt

/-- A letter of the text. -/
inductive Mark where
  | key (k : Key)
  | group
  | reset
deriving DecidableEq

def Mark.ofLetter (c : UInt8) : Option Mark :=
  if toupper c = 83 then some (.key .size)
  else if toupper c = 68 then some (.key .date)
  else if toupper c = 78 then some (.key .name)
  else if toupper c = 69 then some (.key .ext)
  else if toupper c = 71 then some .group
  else if toupper c = 85 then some .reset
  else none

/-- The letters of a text, each with whether there is a minus in front of it. -/
def marks : UInt8 → Str → Option (List (Bool × Mark))
  | _, [] => some []
  | before, c :: p =>
    if c = 45 then marks c p
    else
      match Mark.ofLetter c, marks c p with
      | some m, some ms => some ((before == 45, m) :: ms)
      | _, _ => none

/-- What follows the last `U`. -/
def afterReset : List (Bool × Mark) → List (Bool × Mark)
  | [] => []
  | m :: ms => if .reset ∈ (m :: ms).map Prod.snd then afterReset ms else m :: ms

/-- The keys among the marks. -/
def keysOf (ms : List (Bool × Mark)) : List (Bool × Key) :=
  ms.filterMap fun
    | (inverse, .key k) => some (inverse, k)
    | _ => none

/-- The minus of the last `G`. -/
def lastGroup (ms : List (Bool × Mark)) : Option Bool :=
  (ms.filter (·.2 = .group)).getLast?.map Prod.fst

/-- Each key where it is last. -/
def lastKeys : List (Bool × Key) → List (Bool × Key)
  | [] => []
  | k :: ks => if k.2 ∈ ks.map Prod.snd then lastKeys ks else k :: lastKeys ks

/-- An order, for the user: whether directories are last, and the keys with their minus. -/
structure Wanted where
  group : Option Bool
  keys : List (Bool × Key)
deriving DecidableEq

def wanted (ms : List (Bool × Mark)) : Wanted :=
  ⟨lastGroup (afterReset ms), lastKeys (keysOf (afterReset ms))⟩

/-! ## The loop takes one mark after the other -/

def Order.mark (o : Order) : Bool × Mark → Order
  | (inverse, .key k) => o.add k.option inverse
  | (inverse, .group) => { o with dir := if inverse then orderDirsLast else orderDirsFirst }
  | (_, .reset) => o.restart

/-- `scanLoop` reads the marks of the text, and takes one after the other. -/
theorem scanLoop_eq_marks (before : UInt8) (p : Str) (o : Order) :
    scanLoop before p o = (marks before p).map fun ms => ms.foldl Order.mark o := by
  induction p generalizing before o with
  | nil => rfl
  | cons c p ih =>
    simp only [scanLoop, marks, Mark.ofLetter, ih]
    by_cases hc : c = 45
    · rw [if_pos hc, if_pos hc]
    · rw [if_neg hc, if_neg hc]
      split_ifs <;> cases marks c p <;> simp_all [Order.mark, Key.option]

/-- The marks in front of the last `U`. -/
theorem exists_reset {ms : List (Bool × Mark)} (h : Mark.reset ∈ ms.map Prod.snd) :
    ∃ front inverse, ms = front ++ (inverse, .reset) :: afterReset ms := by
  induction ms with
  | nil => cases h
  | cons m ms ih =>
    have hbehind : afterReset (m :: ms) = afterReset ms := by rw [afterReset, if_pos h]
    rw [hbehind]
    by_cases hm : Mark.reset ∈ ms.map Prod.snd
    · obtain ⟨front, inverse, heq⟩ := ih hm
      exact ⟨m :: front, inverse, by rw [List.cons_append, ← heq]⟩
    · have hr : m.2 = .reset := by
        rcases List.mem_cons.1 h with h | h
        · exact h.symm
        · exact absurd h hm
      have ha : afterReset ms = ms := by
        cases ms with
        | nil => rfl
        | cons n ms => rw [afterReset, if_neg hm]
      obtain ⟨inverse, m⟩ := m
      cases hr
      exact ⟨[], inverse, by rw [ha, List.nil_append]⟩

/-- Of what is in front of the last `U`, only a store outside of the array is left. -/
theorem foldl_afterReset (ms : List (Bool × Mark)) :
    ∃ o : Order, ms.foldl Order.mark .none = (afterReset ms).foldl Order.mark o.restart ∧
      (o = .none ∨ ∃ front, front <+: ms ∧ front.length < ms.length ∧
        o = front.foldl Order.mark .none) := by
  by_cases h : Mark.reset ∈ ms.map Prod.snd
  · obtain ⟨front, inverse, heq⟩ := exists_reset h
    refine ⟨front.foldl Order.mark .none, ?_, Or.inr ⟨front, ⟨_, heq.symm⟩, ?_, rfl⟩⟩
    · conv_lhs => rw [heq, List.foldl_append, List.foldl_cons]
      rfl
    · have hlen := congrArg List.length heq
      rw [List.length_append, List.length_cons] at hlen
      omega
  · refine ⟨.none, ?_, Or.inl rfl⟩
    cases ms with
    | nil => rfl
    | cons m ms =>
      rw [afterReset, if_neg h]
      rfl

theorem reset_not_mem_afterReset (ms : List (Bool × Mark)) :
    Mark.reset ∉ (afterReset ms).map Prod.snd := by
  induction ms with
  | nil => exact List.not_mem_nil
  | cons m ms ih =>
    rw [afterReset]
    split
    · exact ih
    · assumption

/-! ## A key is moved -/

/-- The element of `optOorderby` for a key. -/
def element (k : Bool × Key) : UInt8 := k.2.option ||| if k.1 then orderInverse else 0

theorem element_ne_zero (k : Bool × Key) : element k ≠ 0 := by
  obtain ⟨inverse, k⟩ := k
  cases inverse <;> cases k <;> decide

theorem element_mask (k : Bool × Key) : element k &&& orderByMask = k.2.option := by
  obtain ⟨inverse, k⟩ := k
  cases inverse <;> cases k <;> decide

theorem element_inverse (k : Bool × Key) : element k &&& orderInverse ≠ 0 ↔ k.1 = true := by
  obtain ⟨inverse, k⟩ := k
  cases inverse <;> cases k <;> decide

theorem option_inj {k l : Key} : k.option = l.option ↔ k = l := by
  cases k <;> cases l <;> decide

theorem getD_middle (done : List UInt8) (x : UInt8) (after : List UInt8) :
    (done ++ x :: after).getD done.length 0 = x := by
  simp

/-- Elements for other keys are passed. -/
theorem removeLoop_skip (option : UInt8) (n : ℕ) (done after : List UInt8) (ks : List (Bool × Key))
    (h : ∀ k ∈ ks, k.2.option ≠ option) :
    removeLoop option (ks.length + n) done.length (done ++ (ks.map element ++ after))
      = removeLoop option n (done.length + ks.length) (done ++ (ks.map element ++ after)) := by
  induction ks generalizing done with
  | nil => rw [List.length_nil, Nat.zero_add, Nat.add_zero]
  | cons k ks ih =>
    have hk : k.2.option ≠ option := h k List.mem_cons_self
    have hi := ih (done ++ [element k]) fun k hk => h k (List.mem_cons_of_mem _ hk)
    rw [List.length_append, List.length_singleton, List.append_assoc,
      List.singleton_append] at hi
    rw [List.length_cons, show ks.length + 1 + n = ks.length + n + 1 by omega, removeLoop,
      List.map_cons, List.cons_append, getD_middle, if_neg (element_ne_zero k), element_mask,
      if_neg hk, hi]
    congr 1
    omega

/-- The loop ends at a 0. -/
theorem removeLoop_stop (option : UInt8) (n : ℕ) (done after : List UInt8) :
    removeLoop option (n + 1) done.length (done ++ 0 :: after)
      = (done ++ 0 :: after, done.length) := by
  rw [removeLoop, getD_middle, if_pos rfl]

/-- The key is found: what follows is moved over it, and the next element is not looked at. -/
theorem removeLoop_found (n : ℕ) (done : List UInt8) (k : Bool × Key) (after : List UInt8)
    (hz : (done ++ element k :: after).drop 4 = [0]) :
    removeLoop k.2.option (n + 1) done.length (done ++ element k :: after)
      = removeLoop k.2.option n (done.length + 1) (done ++ (after ++ [0])) := by
  rw [removeLoop, getD_middle, if_neg (element_ne_zero k), element_mask, if_pos rfl, hz,
    List.take_left, show done ++ element k :: after = (done ++ [element k]) ++ after by simp,
    show done.length + 1 = (done ++ [element k]).length by simp, List.drop_left,
    List.append_assoc]

/-- What `optOorderby` is for keys. -/
def orderbyOf (ks : List (Bool × Key)) : List UInt8 :=
  ks.map element ++ List.replicate (5 - ks.length) 0

theorem orderbyOf_eq {ks : List (Bool × Key)} (h : ks.length ≤ 4) :
    orderbyOf ks = ks.map element ++ 0 :: List.replicate (4 - ks.length) 0 := by
  rw [orderbyOf, show 5 - ks.length = 4 - ks.length + 1 by omega, List.replicate_succ]

theorem orderbyOf_last {ks : List (Bool × Key)} (h : ks.length ≤ 4) :
    (orderbyOf ks).drop 4 = [0] := by
  rw [orderbyOf, List.drop_append, List.drop_eq_nil_of_le (by simpa using h), List.length_map,
    List.drop_replicate, show 5 - ks.length - (4 - ks.length) = 1 by omega]
  rfl

/-- The element behind the keys is stored. -/
theorem orderbyOf_set {ks : List (Bool × Key)} (h : ks.length ≤ 4) (k : Bool × Key) :
    (orderbyOf ks).set ks.length (element k) = orderbyOf (ks ++ [k]) := by
  have hl : 5 - (ks.length + 1) = 4 - ks.length := by omega
  rw [orderbyOf_eq h, orderbyOf, List.set_append_right _ _ (by simp), List.length_map,
    Nat.sub_self, List.set_cons_zero, List.length_append, List.length_singleton, hl,
    List.map_append, List.append_assoc]
  rfl

/-! ## The keys that are stored -/

theorem keys_length {ks : List (Bool × Key)} (h : (ks.map Prod.snd).Nodup) : ks.length ≤ 4 := by
  have hs : ks.map Prod.snd ⊆ [.size, .date, .name, .ext] := by
    intro k _
    cases k <;> simp
  have hl := (h.subperm hs).length_le
  rwa [List.length_map] at hl

theorem removeLoop_other {option : UInt8} {ks : List (Bool × Key)} (h4 : ks.length ≤ 4)
    (h : ∀ k ∈ ks, k.2.option ≠ option) :
    removeLoop option 5 0 (orderbyOf ks) = (orderbyOf ks, ks.length) := by
  have hs := removeLoop_skip option (4 - ks.length + 1) []
    (0 :: List.replicate (4 - ks.length) 0) ks h
  have he := removeLoop_stop option (4 - ks.length) (ks.map element)
    (List.replicate (4 - ks.length) 0)
  rw [show ks.length + (4 - ks.length + 1) = 5 by omega, List.length_nil, Nat.zero_add] at hs
  rw [List.length_map] at he
  rw [orderbyOf_eq h4]
  exact hs.trans he

theorem removeLoop_moved {done rest : List (Bool × Key)} {l r : Bool × Key}
    (h4 : (done ++ l :: r :: rest).length ≤ 4) (hd : ∀ k ∈ done, k.2.option ≠ l.2.option)
    (hr : ∀ k ∈ rest, k.2.option ≠ l.2.option) :
    removeLoop l.2.option 5 0 (orderbyOf (done ++ l :: r :: rest))
      = (orderbyOf (done ++ r :: rest), (done ++ r :: rest).length) := by
  have hlast := orderbyOf_last h4
  have hlen := h4
  simp only [List.length_append, List.length_cons] at hlen
  have h4' : (done ++ r :: rest).length ≤ 4 := by
    simp only [List.length_append, List.length_cons]
    omega
  -- the array in parts, before and after
  obtain ⟨z, hz⟩ : ∃ z, 4 - (done ++ l :: r :: rest).length = z := ⟨_, rfl⟩
  have hz' : 4 - (done ++ r :: rest).length = z + 1 := by
    rw [← hz]
    simp only [List.length_append, List.length_cons]
    omega
  have hbefore : orderbyOf (done ++ l :: r :: rest) = done.map element
      ++ element l :: (element r :: (rest.map element ++ 0 :: List.replicate z 0)) := by
    rw [orderbyOf_eq h4, hz]
    simp
  have hafter : orderbyOf (done ++ r :: rest) = (done.map element ++ [element r])
      ++ (rest.map element ++ 0 :: (List.replicate z 0 ++ [0])) := by
    rw [orderbyOf_eq h4', hz', ← List.replicate_succ']
    simp
  have hdone := removeLoop_skip l.2.option (rest.length + (z + 1 + 1) + 1) []
    (element l :: (element r :: (rest.map element ++ 0 :: List.replicate z 0))) done hd
  have hfound := removeLoop_found (rest.length + (z + 1 + 1)) (done.map element) l
    (element r :: (rest.map element ++ 0 :: List.replicate z 0)) (hbefore ▸ hlast)
  have hrest := removeLoop_skip l.2.option (z + 1 + 1) (done.map element ++ [element r])
    (0 :: (List.replicate z 0 ++ [0])) rest hr
  have hstop := removeLoop_stop l.2.option (z + 1)
    (done.map element ++ [element r] ++ rest.map element) (List.replicate z 0 ++ [0])
  have hfuel : done.length + (rest.length + (z + 1 + 1) + 1) = 5 := by
    simp only [List.length_append, List.length_cons] at hz
    omega
  rw [hfuel, List.length_nil, Nat.zero_add, List.nil_append] at hdone
  simp only [List.length_append, List.length_map, List.length_singleton, List.append_assoc,
    List.cons_append, List.nil_append] at hdone hfound hrest hstop hafter
  have hend : done.length + (element r :: rest.map element).length
      = done.length + 1 + rest.length := by
    rw [List.length_cons, List.length_map]
    omega
  rw [hend] at hstop
  rw [hbefore, hdone, hfound, hrest, hafter, hstop, List.length_append, List.length_cons,
    Nat.add_assoc done.length, Nat.add_comm 1]

/-- **A key is moved behind the others**, when it is not the last one already. -/
theorem add_orderby {o : Order} {ks : List (Bool × Key)} {k : Bool × Key}
    (hn : (ks.map Prod.snd).Nodup) (ho : o.orderby = orderbyOf ks)
    (hl : ∀ l ∈ ks.getLast?, l.2 ≠ k.2) :
    (o.add k.2.option k.1).orderby = orderbyOf (ks.filter (fun l => l.2 ≠ k.2) ++ [k])
      ∧ (o.add k.2.option k.1).outside = o.outside := by
  have h4 := keys_length hn
  -- where the loop ends, and with which array
  have key : removeLoop k.2.option 5 0 o.orderby
      = (orderbyOf (ks.filter fun l => l.2 ≠ k.2), (ks.filter fun l => l.2 ≠ k.2).length) := by
    rw [ho]
    by_cases hk : k.2 ∈ ks.map Prod.snd
    · obtain ⟨l, hl', hlk⟩ := List.mem_map.1 hk
      obtain ⟨done, rest, rfl⟩ := List.append_of_mem hl'
      rw [List.map_append, List.map_cons, List.nodup_append, List.nodup_cons] at hn
      have hd : ∀ m ∈ done, m.2 ≠ l.2 := fun m hm =>
        hn.2.2 _ (List.mem_map_of_mem hm) _ List.mem_cons_self
      have hr : ∀ m ∈ rest, m.2 ≠ l.2 := fun m hm he =>
        hn.2.1.1 (he ▸ List.mem_map_of_mem hm)
      rw [← hlk]
      have hf : (done ++ l :: rest).filter (fun m => m.2 ≠ l.2) = done ++ rest := by
        rw [List.filter_append, List.filter_cons_of_neg (by simp), List.filter_eq_self.2,
          List.filter_eq_self.2]
        · simpa using hr
        · simpa using hd
      rw [hf]
      cases rest with
      | nil => exact absurd hlk (hl l (by simp))
      | cons r rest =>
        exact removeLoop_moved h4 (fun m hm => mt option_inj.1 (hd m hm))
          fun m hm => mt option_inj.1 (hr m (List.mem_cons_of_mem _ hm))
    · have hne : ∀ l ∈ ks, l.2 ≠ k.2 := fun l hl he => hk (he ▸ List.mem_map_of_mem hl)
      rw [List.filter_eq_self.2 (by simpa using hne)]
      exact removeLoop_other h4 fun l hl => mt option_inj.1 (hne l hl)
  have hf := List.length_filter_le (fun l : Bool × Key => decide (l.2 ≠ k.2)) ks
  have h4' : (ks.filter fun l => l.2 ≠ k.2).length ≤ 4 := by omega
  refine ⟨?_, ?_⟩
  · rw [Order.add, key]
    exact orderbyOf_set h4' k
  · have hinside : decide (5 ≤ (ks.filter fun l => l.2 ≠ k.2).length) = false :=
      decide_eq_false (Nat.not_le.2 (Nat.lt_succ_of_le h4'))
    rw [Order.add, key]
    dsimp only
    rw [hinside, Bool.or_false]

/-! ## What scanOrder leaves -/

theorem lastKeys_subset (ks : List (Bool × Key)) : lastKeys ks ⊆ ks := by
  induction ks with
  | nil => exact fun _ h => h
  | cons k ks ih =>
    rw [lastKeys]
    split
    · exact List.subset_cons_of_subset k ih
    · exact List.cons_subset_cons k ih

theorem lastKeys_nodup (ks : List (Bool × Key)) : ((lastKeys ks).map Prod.snd).Nodup := by
  induction ks with
  | nil => exact List.nodup_nil
  | cons k ks ih =>
    rw [lastKeys]
    split
    · exact ih
    · rename_i hk
      exact List.nodup_cons.2 ⟨mt (fun h => List.map_subset _ (lastKeys_subset ks) h) hk, ih⟩

/-- A key that comes last moves behind the others. -/
theorem lastKeys_append (ks : List (Bool × Key)) (x : Bool × Key) :
    lastKeys (ks ++ [x]) = (lastKeys ks).filter (fun k => k.2 ≠ x.2) ++ [x] := by
  induction ks with
  | nil => rfl
  | cons k ks ih =>
    have hm : k.2 ∈ (ks ++ [x]).map Prod.snd ↔ k.2 ∈ ks.map Prod.snd ∨ k.2 = x.2 := by
      rw [List.map_append, List.mem_append, List.map_singleton, List.mem_singleton]
    rw [List.cons_append, lastKeys, lastKeys, ih]
    by_cases hk : k.2 ∈ ks.map Prod.snd
    · rw [if_pos (hm.2 (Or.inl hk)), if_pos hk]
    · rw [if_neg hk]
      by_cases hx : k.2 = x.2
      · rw [if_pos (hm.2 (Or.inr hx)), List.filter_cons_of_neg (by simpa using hx)]
      · rw [if_neg (mt hm.1 (not_or.2 ⟨hk, hx⟩)), List.filter_cons_of_pos (by simpa using hx),
          List.cons_append]

theorem lastKeys_getLast? (ks : List (Bool × Key)) : (lastKeys ks).getLast? = ks.getLast? := by
  induction ks using List.reverseRecOn with
  | nil => rfl
  | append_singleton ks x => rw [lastKeys_append, List.getLast?_concat, List.getLast?_concat]

/-- `optOdir` for the last `G`. -/
def dirOf : Option Bool → UInt8
  | none => 0
  | some true => orderDirsLast
  | some false => orderDirsFirst

/-- The variables say what is wanted. -/
structure Holds (o : Order) (w : Wanted) : Prop where
  dir : o.dir = dirOf w.group
  orderby : o.orderby = orderbyOf w.keys

/-- **The marks behind the last `U` leave what is wanted**, when no key follows itself, and nothing
is stored outside of the array for them. -/
theorem foldl_holds (ms : List (Bool × Mark)) (hr : Mark.reset ∉ ms.map Prod.snd)
    (hc : ((keysOf ms).map Prod.snd).IsChain (· ≠ ·)) (o : Order) :
    Holds (ms.foldl Order.mark o.restart) ⟨lastGroup ms, lastKeys (keysOf ms)⟩ ∧
      (ms.foldl Order.mark o.restart).outside = o.outside := by
  induction ms using List.reverseRecOn with
  | nil => exact ⟨⟨rfl, rfl⟩, rfl⟩
  | append_singleton ms m ih =>
    rw [List.map_append, List.mem_append, not_or] at hr
    obtain ⟨inverse, m⟩ := m
    rw [List.foldl_append]
    cases m with
    | key k =>
      have hk : keysOf (ms ++ [(inverse, .key k)]) = keysOf ms ++ [(inverse, k)] := by
        simp [keysOf]
      have hg : lastGroup (ms ++ [(inverse, .key k)]) = lastGroup ms := by
        simp [lastGroup]
      rw [hk, List.map_append, List.isChain_append] at hc
      obtain ⟨⟨hd, ho⟩, hi⟩ := ih hr.1 hc.1
      have ha := add_orderby (k := (inverse, k)) (lastKeys_nodup (keysOf ms)) ho fun l hl => by
        rw [lastKeys_getLast?] at hl
        exact hc.2.2 l.2 (by simp [Option.mem_def.1 hl]) k (by simp)
      rw [hk, hg, lastKeys_append]
      exact ⟨⟨hd, ha.1⟩, ha.2.trans hi⟩
    | group =>
      have hk : keysOf (ms ++ [(inverse, .group)]) = keysOf ms := by simp [keysOf]
      have hg : lastGroup (ms ++ [(inverse, .group)]) = some inverse := by simp [lastGroup]
      rw [hk] at hc
      obtain ⟨⟨_, ho⟩, hi⟩ := ih hr.1 hc
      rw [hk, hg]
      exact ⟨⟨by cases inverse <;> rfl, ho⟩, hi⟩
    | reset => exact absurd (by simp) hr.2

/-- No key follows itself behind the last `U`. -/
def NoDouble (ms : List (Bool × Mark)) : Prop :=
  ((keysOf (afterReset ms)).map Prod.snd).IsChain (· ≠ ·)

instance (ms : List (Bool × Mark)) : Decidable (NoDouble ms) :=
  inferInstanceAs (Decidable (List.IsChain _ _))

/-- Nor does one in front of it, up to the `U` before. -/
def NoDoubles (ms : List (Bool × Mark)) : Prop := ∀ front, front <+: ms → NoDouble front

/-- Without a key that follows itself there is no store outside of the array. -/
theorem foldl_inside : ∀ {n : ℕ} {ms : List (Bool × Mark)}, ms.length < n → NoDoubles ms →
    (ms.foldl Order.mark .none).outside = false
  | 0, _, hn, _ => absurd hn (Nat.not_lt_zero _)
  | n + 1, ms, hn, hd => by
    obtain ⟨o, heq, ho⟩ := foldl_afterReset ms
    rw [heq, (foldl_holds _ (reset_not_mem_afterReset ms) (hd ms List.prefix_rfl) o).2]
    rcases ho with rfl | ⟨front, hfront, hlt, rfl⟩
    · rfl
    · exact foldl_inside (Nat.lt_of_lt_of_le hlt (Nat.le_of_lt_succ hn))
        fun front' hfront' => hd front' (hfront'.trans hfront)

theorem scanOrder_inside {before beforeDefault : UInt8} {p : Str} {o : Order}
    {ms : List (Bool × Mark)} (hm : marks before p = some ms)
    (ho : scanOrder before beforeDefault p = some o) (hd : NoDoubles ms) : o.outside = false := by
  rw [scanOrder] at ho
  split at ho
  · have hng : scanOrder before beforeDefault [] = some o := by rw [scanOrder, if_pos rfl, ho]
    cases Option.some.inj (hng.symm.trans rfl)
    rfl
  · rw [scanLoop_eq_marks, hm, Option.map_some, Option.some.injEq] at ho
    rw [← ho]
    exact foldl_inside (Nat.lt_succ_self _) hd

/-- **What `scanOrder` leaves is what the text asks for.** -/
theorem scanOrder_holds {before beforeDefault : UInt8} {p : Str} {o : Order}
    {ms : List (Bool × Mark)} (hp : p ≠ []) (hm : marks before p = some ms)
    (ho : scanOrder before beforeDefault p = some o) (hd : NoDouble ms) : Holds o (wanted ms) := by
  rw [scanOrder, if_neg hp, scanLoop_eq_marks, hm, Option.map_some, Option.some.injEq] at ho
  obtain ⟨o', heq, -⟩ := foldl_afterReset ms
  rw [← ho, heq]
  exact (foldl_holds _ (reset_not_mem_afterReset ms) hd o').1

end Listing
end BurdahDos
