import Mathlib

/-!
# Circular lists

Nodes that point to the next one and to the one before, in a circle.  Everything that changes such
a circle makes one node follow another, `Links.join`: to take a node out is one join
(`Circle.remove`), to put one in is two (`Circle.insert`).  A loop that follows the pointers until
it is back goes over the nodes in their order (`Circle.walk_eq`).
-/

set_option autoImplicit false

namespace BurdahDos
namespace Circular

/-- Pointers to the next node and to the one before. -/
structure Links (ν : Type*) where
  next : ν → ν
  prev : ν → ν

variable {ν σ ρ : Type*}

/-- The node `y` follows `x`, as both of them say. -/
def Links.Joined (k : Links ν) (x y : ν) : Prop := k.next x = y ∧ k.prev y = x

/-- The nodes form a circle, in this order. -/
def Circle (k : Links ν) : List ν → Prop
  | [] => False
  | a :: l => (a :: l).Nodup ∧ List.IsChain k.Joined (a :: l ++ [a])

/-- A loop that follows the pointers from `x` until it comes to `stop`, or leaves by an
exception. -/
def walk (next : ν → ν) [DecidableEq ν] (stop : ν) (visit : σ → ν → Except ρ σ) :
    ℕ → ν → σ → Option (Except ρ σ)
  | 0, _, _ => none
  | fuel + 1, x, s =>
    match visit s x with
    | .error r => some (.error r)
    | .ok s => if next x = stop then some (.ok s) else walk next stop visit fuel (next x) s

/-- Make `y` follow `x`. -/
def Links.join [DecidableEq ν] (k : Links ν) (x y : ν) : Links ν :=
  ⟨Function.update k.next x y, Function.update k.prev y x⟩

variable {k : Links ν} {a b x y z : ν} {l A B : List ν}

/-! ## Circles -/

theorem Circle.ne_nil (h : Circle k l) : l ≠ [] := by
  rintro rfl
  exact h

theorem Circle.nodup (h : Circle k l) : l.Nodup := by
  cases l with
  | nil => exact absurd h id
  | cons a l => exact h.1

/-- The same circle, from another node on. -/
theorem Circle.rotate (h : Circle k (A ++ B)) : Circle k (B ++ A) := by
  cases A with
  | nil => simpa using h
  | cons a A =>
    cases B with
    | nil => simpa using h
    | cons b B =>
      obtain ⟨hnodup, hchain⟩ := h
      have hperm : ((a :: A) ++ b :: B).Perm ((b :: B) ++ a :: A) := List.perm_append_comm
      refine ⟨hperm.nodup_iff.mp hnodup, ?_⟩
      have hfrom : List.IsChain k.Joined ((a :: A) ++ b :: (B ++ [a])) := by simpa using hchain
      obtain ⟨ha, hb⟩ := List.isChain_split.mp hfrom
      have hto : List.IsChain k.Joined ((b :: B) ++ a :: (A ++ [b])) :=
        List.isChain_split.mpr ⟨hb, ha⟩
      simpa using hto

/-- The node that follows. -/
theorem Circle.next_eq (h : Circle k (A ++ x :: y :: B)) : k.next x = y := by
  have h' : Circle k (x :: (y :: B ++ A)) := by simpa using h.rotate
  have hchain := h'.2
  rw [List.cons_append, List.cons_append, List.cons_append, List.isChain_cons_cons] at hchain
  exact hchain.1.1

/-- The last node is followed by the first. -/
theorem Circle.last_next (h : Circle k (a :: l ++ [z])) : k.next z = a ∧ k.prev a = z := by
  have hchain : List.IsChain k.Joined ((a :: l) ++ z :: [a]) := by simpa using h.2
  have := (List.isChain_split.mp hchain).2
  rw [List.isChain_cons_cons] at this
  exact this.1

/-- The node after the first one, which may be the only one. -/
theorem Circle.next_first (h : Circle k (a :: l)) : (l ++ [a]).head? = some (k.next a) := by
  have hchain := h.2
  rw [List.cons_append] at hchain
  cases hl : l ++ [a] with
  | nil => exact absurd hl (by simp)
  | cons b l' =>
    rw [hl, List.isChain_cons_cons] at hchain
    rw [List.head?_cons, hchain.1.1]

/-- The node before the first one is the last. -/
theorem Circle.prev_first (h : Circle k (a :: l)) : (a :: l).getLast? = some (k.prev a) := by
  obtain ⟨ini, z, hz⟩ : ∃ ini z, a :: l = ini ++ [z] :=
    ⟨_, _, (List.dropLast_append_getLast (List.cons_ne_nil a l)).symm⟩
  have hchain := h.2
  rw [hz, List.append_assoc, List.singleton_append, List.isChain_split, List.isChain_pair] at hchain
  rw [hz, List.getLast?_concat, hchain.2.2]

/-! ## The nodes one gets to -/

theorem Circle.next_mem (h : Circle k l) (hx : x ∈ l) : k.next x ∈ l := by
  obtain ⟨A, B, rfl⟩ := List.append_of_mem hx
  have hround : Circle k (x :: (B ++ A)) := h.rotate
  have hmem := List.mem_of_head? hround.next_first
  simp only [List.mem_append, List.mem_cons, List.not_mem_nil, or_false] at hmem ⊢
  tauto

/-- Every node of a chain is so many steps from the first one. -/
theorem chain_iterate (h : List.IsChain k.Joined (a :: l)) (hx : x ∈ a :: l) :
    ∃ i, k.next^[i] a = x := by
  induction l generalizing a with
  | nil => exact ⟨0, (List.mem_singleton.mp hx).symm⟩
  | cons b l ih =>
    rw [List.isChain_cons_cons] at h
    rcases List.mem_cons.mp hx with rfl | hx
    · exact ⟨0, rfl⟩
    · obtain ⟨i, hi⟩ := ih h.2 hx
      exact ⟨i + 1, by rw [Function.iterate_succ_apply, h.1.1, hi]⟩

/-- **From the first node one gets to the nodes of the circle**, and to no others. -/
theorem Circle.iterate_iff (h : Circle k (a :: l)) : (∃ i, k.next^[i] a = x) ↔ x ∈ a :: l := by
  refine ⟨?_, chain_iterate h.2.left_of_append⟩
  rintro ⟨i, rfl⟩
  induction i with
  | zero => exact List.mem_cons_self
  | succ i ih =>
    rw [Function.iterate_succ_apply']
    exact h.next_mem ih

section
variable [DecidableEq ν]

theorem joined_join (k : Links ν) (x y : ν) : (k.join x y).Joined x y :=
  ⟨Function.update_self .., Function.update_self ..⟩

theorem Links.Joined.join (h : k.Joined a b) (ha : a ≠ x) (hb : b ≠ y) : (k.join x y).Joined a b :=
  ⟨(Function.update_of_ne ha ..).trans h.1, (Function.update_of_ne hb ..).trans h.2⟩

/-- A chain does not change when one node is made to follow another outside. -/
theorem isChain_join (h : List.IsChain k.Joined l) (hx : x ∉ l.dropLast) (hy : y ∉ l.tail) :
    List.IsChain (k.join x y).Joined l := by
  induction l with
  | nil => exact List.IsChain.nil
  | cons c l ih =>
    cases l with
    | nil => exact List.IsChain.singleton c
    | cons d l =>
      rw [List.isChain_cons_cons] at h ⊢
      simp only [List.dropLast_cons_cons, List.mem_cons, not_or, List.tail_cons] at hx hy
      exact ⟨h.1.join (Ne.symm hx.1) (Ne.symm hy.1), ih h.2 hx.2 hy.2⟩

/-- The last of a chain is made to follow the first: a circle. -/
theorem circle_join (hnodup : (a :: l).Nodup) (h : List.IsChain k.Joined (a :: l))
    (hz : (a :: l).getLast? = some z) : Circle (k.join z a) (a :: l) := by
  obtain ⟨ini, hini⟩ := List.getLast?_eq_some_iff.mp hz
  have hz' : z ∉ (a :: l).dropLast := by
    rw [hini] at hnodup ⊢
    rw [List.dropLast_concat]
    exact fun hmem => (List.nodup_append.mp hnodup).2.2 z hmem z (List.mem_singleton_self z) rfl
  have hchain := isChain_join (x := z) (y := a) h hz' (List.nodup_cons.mp hnodup).1
  refine ⟨hnodup, ?_⟩
  rw [hini] at hchain ⊢
  rw [List.append_assoc, List.singleton_append, List.isChain_split, List.isChain_pair]
  exact ⟨hchain, joined_join k z a⟩

/-- **Taking a node out.** -/
theorem Circle.remove (h : Circle k (A ++ b :: B)) (hne : A ++ B ≠ []) :
    Circle (k.join (k.prev b) (k.next b)) (A ++ B) := by
  refine Circle.rotate ?_
  have hb : Circle k (b :: (B ++ A)) := by simpa using h.rotate
  have hne' : B ++ A ≠ [] := fun hnil => hne (by
    obtain ⟨rfl, rfl⟩ := List.append_eq_nil_iff.mp hnil
    rfl)
  generalize B ++ A = l at hb hne'
  obtain ⟨c, l, rfl⟩ := List.exists_cons_of_ne_nil hne'
  obtain ⟨ini, z, hz⟩ : ∃ ini z, c :: l = ini ++ [z] :=
    ⟨_, _, (List.dropLast_append_getLast (List.cons_ne_nil c l)).symm⟩
  have hnext : k.next b = c := Circle.next_eq (A := []) hb
  have hprev : k.prev b = z := by
    rw [hz] at hb
    exact hb.last_next.2
  rw [hnext, hprev]
  obtain ⟨hnodup, hchain⟩ := hb
  rw [List.cons_append, List.cons_append, List.isChain_cons_cons, ← List.cons_append] at hchain
  exact circle_join (List.nodup_cons.mp hnodup).2 hchain.2.left_of_append (by rw [hz]; simp)

/-- **Putting a node in**, before the first one. -/
theorem Circle.insert (h : Circle k (a :: l)) (hb : b ∉ a :: l) :
    Circle ((k.join (k.prev a) b).join b a) (b :: a :: l) := by
  obtain ⟨ini, z, hz⟩ : ∃ ini z, a :: l = ini ++ [z] :=
    ⟨_, _, (List.dropLast_append_getLast (List.cons_ne_nil a l)).symm⟩
  obtain ⟨hnodup, hchain⟩ := h
  have hprev : k.prev a = z := by
    rw [hz, List.append_assoc, List.singleton_append, List.isChain_split, List.isChain_pair] at hchain
    exact hchain.2.2
  have hz' : z ∉ (a :: l).dropLast := by
    rw [hz] at hnodup ⊢
    rw [List.dropLast_concat]
    exact fun hmem => (List.nodup_append.mp hnodup).2.2 z hmem z (List.mem_singleton_self z) rfl
  -- first `b` follows the last node, then the first one follows `b`
  have hlast : List.IsChain (k.join z b).Joined (a :: l ++ [b]) := by
    have hinner := isChain_join (x := z) (y := b) hchain.left_of_append hz'
      fun hmem => hb (List.mem_of_mem_tail hmem)
    rw [hz] at hinner ⊢
    rw [List.append_assoc, List.singleton_append, List.isChain_split, List.isChain_pair]
    exact ⟨hinner, joined_join k z b⟩
  have hfirst : List.IsChain ((k.join z b).join b a).Joined (a :: l ++ [b]) := by
    refine isChain_join hlast ?_ ?_
    · rwa [List.dropLast_concat]
    · rw [List.cons_append, List.tail_cons, List.mem_append, List.mem_singleton]
      rintro (hmem | rfl)
      · exact (List.nodup_cons.mp hnodup).1 hmem
      · exact hb List.mem_cons_self
  rw [hprev]
  refine ⟨List.nodup_cons.mpr ⟨hb, hnodup⟩, ?_⟩
  rw [List.cons_append, List.cons_append, List.isChain_cons_cons]
  exact ⟨joined_join _ b a, hfirst⟩

/-! ## Going round -/

/-- A loop that follows the pointers goes over all nodes, in their order. -/
theorem walk_eq (visit : σ → ν → Except ρ σ) {fuel : ℕ} (h : Circle k (a :: l))
    (hf : l.length < fuel) (s : σ) :
    walk k.next a visit fuel a s = some ((a :: l).foldlM visit s) := by
  obtain ⟨hnodup, hchain⟩ := h
  -- from any node on that is not the first again
  have hrest : ∀ (l : List ν) (x : ν) (fuel : ℕ) (s : σ), List.IsChain k.Joined (x :: l ++ [a]) →
      a ∉ l → l.length < fuel → walk k.next a visit fuel x s = some ((x :: l).foldlM visit s) := by
    intro l
    induction l with
    | nil =>
      intro x fuel s hchain _ hf
      obtain ⟨fuel, rfl⟩ := Nat.exists_eq_succ_of_ne_zero (Nat.ne_of_gt hf)
      rw [List.cons_append, List.nil_append, List.isChain_pair] at hchain
      rw [walk, List.foldlM_cons]
      cases visit s x with
      | error r => rfl
      | ok s => simp only [hchain.1, if_true]; rfl
    | cons y l ih =>
      intro x fuel s hchain hl hf
      obtain ⟨fuel, rfl⟩ := Nat.exists_eq_succ_of_ne_zero (Nat.ne_of_gt (Nat.lt_of_le_of_lt
        (Nat.zero_le _) hf))
      rw [List.cons_append, List.cons_append, List.isChain_cons_cons] at hchain
      rw [walk, List.foldlM_cons]
      cases visit s x with
      | error r => rfl
      | ok s =>
        have hne : y ≠ a := fun heq => hl (heq ▸ List.mem_cons_self)
        simp only [hchain.1.1, if_neg hne]
        rw [ih y fuel s hchain.2 (fun hmem => hl (List.mem_cons_of_mem _ hmem))
          (by simpa using hf)]
        rfl
  exact hrest l a fuel s hchain (List.nodup_cons.mp hnodup).1 hf

end

end Circular
end BurdahDos
