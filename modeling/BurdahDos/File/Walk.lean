import BurdahDos.File.Call
import Mathlib

/-!
# One call of `map_cluster` after another

An fnode that is placed in its chain stays so, whatever offsets it is sent to, forward or backward,
reading or writing, and whatever reads of the table fail on the way.  `Sought` is what one call
does, and `mapCluster_calls` that every call of a sequence does it.
-/

set_option autoImplicit false

namespace BurdahDos
namespace File

open Fat

variable {v v' v'' : Volume} {L L' L'' : List ℕ} {fnp : FNode} {mode : XfrMode}

/-! ## Searching when reads fail -/

/-- The chain `L` has become `L'`, with clusters that were free.  Other entries are as they were,
but free clusters may have been lost: they are in use, and in no chain. -/
structure Stretched (L L' : List ℕ) (v v' : Volume) : Prop where
  ok : v'.dpb.Ok
  same : v.dpb.Same v'.dpb
  chain : v'.IsChain L'
  pre : L <+: L'
  new : ∀ c ∈ L', c ∉ L → v.entry c = free
  other : ∀ c, c ∉ L' →
    v'.entry c = v.entry c ∨ v.entry c = free ∧ v'.entry c = longLastCluster

/-- No entry has changed. -/
theorem Stretched.of_entry (hd : v'.dpb.Ok) (hsame : v.dpb.Same v'.dpb) (hL : v.IsChain L)
    (hentry : v'.entry = v.entry) : Stretched L L v v' :=
  ⟨hd, hsame, ⟨fun c hc => (hsame.has c).mpr (hL.range c hc), hL.nodup,
      hL.linked.congr fun c _ => congrFun hentry c⟩,
    List.prefix_refl L, fun _ hc hn => absurd hc hn, fun c _ => Or.inl (congrFun hentry c)⟩

theorem Stretched.refl (hd : v.dpb.Ok) (hL : v.IsChain L) : Stretched L L v v :=
  .of_entry hd (.refl _) hL rfl

theorem Stretched.trans (h : Stretched L L' v v') (h' : Stretched L' L'' v' v'') :
    Stretched L L'' v v'' where
  ok := h'.ok
  same := h.same.trans h'.same
  chain := h'.chain
  pre := h.pre.trans h'.pre
  new c hc hn := by
    by_cases hc' : c ∈ L'
    · exact h.new c hc' hn
    · rcases h.other c hc' with hentry | ⟨hfree, -⟩
      · rw [← hentry]
        exact h'.new c hc hc'
      · exact hfree
  other c hc := by
    have hc' : c ∉ L' := fun hc' => hc (h'.pre.subset hc')
    rcases h.other c hc' with hentry | ⟨hfree, hlost⟩
    · rw [← hentry]
      exact h'.other c hc
    · refine Or.inr ⟨hfree, ?_⟩
      rcases h'.other c hc with hentry | ⟨-, hlost'⟩
      · exact hentry.trans hlost
      · exact hlost'

section
variable {c : ℕ} (hd : v'.dpb.Ok) (hsame : v.dpb.Same v'.dpb) (hL : v.IsChain L) (hhas : v.dpb.Has c)
  (hfree : v.entry c = free)
include hd hsame hL hfree

/-- A cluster is marked, but not put in the chain. -/
theorem Stretched.lost (hentry : v'.entry = Function.update v.entry c longLastCluster) :
    Stretched L L v v' := by
  have hcL : c ∉ L := fun hmem => hL.not_free hmem hfree
  have hother : ∀ d, d ≠ c → v'.entry d = v.entry d := fun d hne => by
    rw [hentry, Function.update_of_ne hne]
  refine ⟨hd, hsame, ⟨fun d hd => (hsame.has d).mpr (hL.range d hd), hL.nodup,
      hL.linked.congr fun d hd => hother d ?_⟩,
    List.prefix_refl L, fun _ hd hn => absurd hd hn, fun d _ => ?_⟩
  · rintro rfl
    exact hcL hd
  · by_cases hdc : d = c
    · rw [hdc, hentry, Function.update_self]
      exact Or.inr ⟨hfree, rfl⟩
    · exact Or.inl (hother d hdc)

include hhas

/-- The chain gets its first cluster. -/
theorem Stretched.first (hnil : L = [])
    (hentry : v'.entry = Function.update v.entry c longLastCluster) :
    Stretched L (L ++ [c]) v v' ∧ ∀ d, d ∉ L ++ [c] → v'.entry d = v.entry d := by
  subst hnil
  have hother : ∀ d, d ∉ [c] → v'.entry d = v.entry d := fun d hd => by
    rw [hentry, Function.update_of_ne (by simpa using hd)]
  refine ⟨⟨hd, hsame, ⟨?_, by simp, ?_, trivial⟩, by simp, ?_, fun d hd => Or.inl (hother d hd)⟩,
    hother⟩
  · simpa using (hsame.has c).mpr hhas
  · rw [hentry]
    simp
  · simpa using hfree

/-- The last cluster of the chain gets a successor. -/
theorem Stretched.snoc {M : List ℕ} {e : ℕ} (hsnoc : L = M ++ [e])
    (hentry : v'.entry = Function.update (Function.update v.entry c longLastCluster) e c) :
    Stretched L (L ++ [c]) v v' ∧ ∀ d, d ∉ L ++ [c] → v'.entry d = v.entry d := by
  subst hsnoc
  have hcL : c ∉ M ++ [e] := fun hmem => hL.not_free hmem hfree
  have hce : c ≠ e := by rintro rfl; simp at hcL
  have heM : e ∉ M := fun hmem => (List.disjoint_of_nodup_append hL.nodup) hmem (by simp)
  have hother : ∀ d, d ≠ c → d ≠ e → v'.entry d = v.entry d := fun d hdc hde => by
    rw [hentry, Function.update_of_ne hde, Function.update_of_ne hdc]
  have hout : ∀ d, d ∉ M ++ [e] ++ [c] → v'.entry d = v.entry d := fun d hd => by
    simp only [List.mem_append, List.mem_singleton, not_or] at hd
    exact hother d hd.2 hd.1.2
  refine ⟨⟨hd, hsame, ⟨fun d hd => (hsame.has d).mpr ?_, ?_, ?_⟩, List.prefix_append _ _,
    fun d hd hd' => ?_, fun d hd => Or.inl (hout d hd)⟩, hout⟩
  · rcases List.mem_append.mp hd with hd | hd
    · exact hL.range d hd
    · rw [List.mem_singleton.mp hd]
      exact hhas
  · exact List.nodup_append.mpr ⟨hL.nodup, by simp, by
      rintro d hd f hf rfl
      rw [List.mem_singleton.mp hf] at hd
      exact hcL hd⟩
  · refine hL.linked.snoc ?_ (by rw [hentry, Function.update_self]) fun d hd => hother d ?_ ?_
    · rw [hentry, Function.update_of_ne hce, Function.update_self]
    · rintro rfl
      exact hcL (List.mem_append_left _ hd)
    · rintro rfl
      exact heM hd
  · rcases List.mem_append.mp hd with hd | hd
    · exact absurd hd hd'
    · rw [List.mem_singleton.mp hd]
      exact hfree

end

/-! ## `extend` -/

theorem Placed.move (h : Placed v.dpb L fnp) (hon : fnp.On L) (hs : Stretched L L' v v')
    {cluster clusterOffset : ℕ} (hto : (fnp.to cluster clusterOffset).On L') :
    Placed v'.dpb L' (fnp.to cluster clusterOffset) := by
  refine ⟨?_, Or.inr hto⟩
  rw [head_same hs.same]
  refine h.head.trans ?_
  obtain ⟨M, rfl⟩ := hs.pre
  cases L with
  | nil => exact absurd rfl hon.ne_nil
  | cons c L => rfl

end File
end BurdahDos
