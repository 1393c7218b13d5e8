import BurdahDos.Cache.Pointers
import BurdahDos.Lib.Circular
import Mathlib

/-!
# The ring of buffers

The buffers point to each other by their offsets, and `firstbuf` to one of them: a circular list,
linked both ways, in which `move_buffer` brings a buffer to the front, and from which
`AllocateHMASpace` takes buffers out.

`Shows` says which list of buffers a ring is, and each function does to the ring what its model in
`Cache.Defs` does to that list.  So the pointers always form one circle of `LoL_nbuffers` buffers
(`run_wellFormed`), unless `AllocateHMASpace` is told to take all of them, which INT 2F never does:
what it gives away lies behind the buffers that `BUFFERS=` asks for, and these are six at least.
-/

set_option autoImplicit false

namespace BurdahDos
namespace Cache

open Circular

variable {β : Type*}

/-! ## Buffers and pointers -/

/-- The buffers, by their offsets in the segment of `firstbuf`. -/
structure Ring (β : Type*) where
  /-- `b_next` and `b_prev` -/
  links : Links Nat
  buf : Nat → Buffer β
  /-- `FP_OFF(firstbuf)` -/
  firstbuf : Nat
  /-- `FP_SEG(firstbuf)` -/
  bufseg : Nat
  /-- `LoL_nbuffers` -/
  nbuffers : UInt16
  world : World β

/-- There are not more buffers than offsets. -/
def ringFuel : Nat := 2 ^ 16

/-- Change what the buffer at `bp` holds. -/
def Ring.put (s : Ring β) (bp : Nat) (b : Buffer β) : Ring β :=
  { s with buf := Function.update s.buf bp b }

/-- `move_buffer`: its six assignments. -/
def moveBuffer (k : Links Nat) (bp firstbp : Nat) : Links Nat :=
  -- connect bp->b_prev and bp->b_next
  let k : Links Nat := ⟨k.next, Function.update k.prev (k.next bp) (k.prev bp)⟩
  let k : Links Nat := ⟨Function.update k.next (k.prev bp) (k.next bp), k.prev⟩
  -- insert bp between firstbp and firstbp->b_prev
  let k : Links Nat := ⟨k.next, Function.update k.prev bp (k.prev firstbp)⟩
  let k : Links Nat := ⟨Function.update k.next bp firstbp, k.prev⟩
  let k : Links Nat := ⟨k.next, Function.update k.prev (k.next bp) bp⟩
  ⟨Function.update k.next (k.prev bp) bp, k.prev⟩

/-- The variables of `searchblock`: offsets, or 0. -/
structure Vars where
  fatCount : Nat
  lastNonFat : Nat
  uncacheBuf : Nat

/-- The body of the loop of `searchblock`; an exception is a hit. -/
def searchVisit (buf : Nat → Buffer β) (blkno : UInt32) (dsk : Nat) (a : Vars) (bp : Nat) :
    Except Nat Vars :=
  if (buf bp).holds blkno dsk then .error bp
  else
    .ok
      { fatCount := if (buf bp).bFlag.fat then a.fatCount + 1 else a.fatCount
        lastNonFat := if (buf bp).bFlag.fat then a.lastNonFat else bp
        uncacheBuf := if (buf bp).bFlag.uncache then bp else a.uncacheBuf }

/-- Set or clear `BFR_UNCACHE`. -/
def Buffer.setUncache (b : Buffer β) (u : Bool) : Buffer β :=
  { b with bFlag := { b.bFlag with uncache := u } }

/-- The buffer at `bp` becomes the first one. -/
def Ring.toFront (s : Ring β) (bp : Nat) : Ring β :=
  if bp ≠ s.firstbuf then { s with links := moveBuffer s.links bp s.firstbuf, firstbuf := bp }
  else s

/-- The buffer that `searchblock` gives up. -/
def Ring.victim (s : Ring β) (a : Vars) : Nat :=
  if a.uncacheBuf ≠ 0 then a.uncacheBuf
  else if (s.buf s.firstbuf).bFlag.fat ∧ a.fatCount < 3 ∧ a.lastNonFat ≠ 0 then a.lastNonFat
  else s.links.prev s.firstbuf

/-- `searchblock`: a pointer to the buffer. -/
def Ring.searchblock (s : Ring β) (blkno : UInt32) (dsk : Nat) : Option (Nat × Ring β) :=
  match walk s.links.next s.firstbuf (searchVisit s.buf blkno dsk) ringFuel s.firstbuf ⟨0, 0, 0⟩ with
  | none => none
  | some (.error bp) => some (bp, (s.put bp ((s.buf bp).setUncache false)).toFront bp)
  | some (.ok a) =>
    let bp := s.victim a
    some (bp, (s.put bp ((s.buf bp).setUncache true)).toFront bp)

/-- `flush1` on the buffer at `bp`. -/
def Ring.flush1 (s : Ring β) (bp : Nat) : Bool × Ring β :=
  let r := Cache.flush1 (s.buf bp) s.world
  (r.1, { s.put bp r.2.1 with world := r.2.2 })

/-- `getblk`, with the pointer that it returns; a null pointer is `none`. -/
def Ring.getblk (s : Ring β) (blkno : UInt32) (dsk : Nat) (overwrite : Bool) (read : Option β) :
    Option (Option Nat × Ring β) :=
  match s.searchblock blkno dsk with
  | none => none
  | some (bp, s) =>
    if !(s.buf bp).bFlag.uncache then some (some bp, s)
    else
      let r := s.flush1 bp
      let s := r.2
      if !r.1 then some (none, s)
      else
        match if overwrite then none else read with
        | some garbage => some (none, s.put bp { s.buf bp with bBuffer := garbage })
        | none =>
          some (some bp, s.put bp
            { s.buf bp with
              bBuffer := if overwrite then (s.buf bp).bBuffer else s.world.disk (dsk, blkno)
              bFlag := { Flags.none with valid := true, data := true }
              bUnit := dsk
              bBlkno := blkno })

/-- The loop of several functions over the ring, which changes buffers and no pointers. -/
def Ring.around (s : Ring β) (visit : Ring β → Nat → Ring β) : Option (Ring β) :=
  match walk s.links.next s.firstbuf (fun s bp => .ok (visit s bp)) ringFuel s.firstbuf s with
  | some (.ok s) => some s
  | some (.error e) => nomatch (e : Empty)
  | none => none

/-- `flush_buffers` -/
def Ring.flushBuffers (s : Ring β) (dsk : Nat) : Option (Ring β) :=
  s.around fun s bp => if (s.buf bp).bUnit == dsk then (s.flush1 bp).2 else s

/-- `flush` -/
def Ring.flush (s : Ring β) : Option (Ring β) :=
  s.around fun s bp =>
    let s := (s.flush1 bp).2
    s.put bp { s.buf bp with bFlag := { (s.buf bp).bFlag with valid := false } }

/-- `setinvld` -/
def Ring.setinvld (s : Ring β) (dsk : Nat) : Option (Ring β) :=
  s.around fun s bp =>
    if (s.buf bp).bUnit == dsk then s.put bp { s.buf bp with bFlag := Flags.none } else s

/-- `DeleteBlockInBufferCache` -/
def Ring.deleteBlockInBufferCache (s : Ring β) (blknolow blknohigh : UInt32) (dsk : Nat)
    (mode : XfrMode) : Option (Ring β) :=
  s.around fun s bp =>
    if (s.buf bp).inRange blknolow blknohigh dsk then
      match mode with
      | .read => (s.flush1 bp).2
      | .write => s.put bp { s.buf bp with bFlag := Flags.none }
    else s

/-- The buffer at `bp` intersects with the area: `FP_OFF(bp+1)` may wrap around. -/
def inArea (lowbuffer highbuffer bp : Nat) : Bool :=
  decide (bp ≤ highbuffer) && decide (lowbuffer < (bp + bufferSize) % 2 ^ 16)

/-- Unlink `bp` from the buffer chain. -/
def Ring.unlink (s : Ring β) (bp : Nat) : Ring β :=
  let k := s.links
  let k : Links Nat := ⟨Function.update k.next (k.prev bp) (k.next bp), k.prev⟩
  let k : Links Nat := ⟨k.next, Function.update k.prev (k.next bp) (k.prev bp)⟩
  { s with
    links := k
    firstbuf := if bp = s.firstbuf then k.next bp else s.firstbuf
    nbuffers := s.nbuffers - 1 }

/-- The loop of `AllocateHMASpace`. -/
def allocateLoop (lowbuffer highbuffer : Nat) : Nat → Nat → Ring β → Ring β
  | 0, _, s => s
  | n + 1, bp, s =>
    let s := if inArea lowbuffer highbuffer bp then (s.flush1 bp).2.unlink bp else s
    allocateLoop lowbuffer highbuffer n (s.links.next bp) s

/-- `AllocateHMASpace`.  Its loop counts down from `LoL_nbuffers`, and from 0 all the way round. -/
def Ring.allocateHMASpace (s : Ring β) (lowbuffer highbuffer : Nat) : Ring β :=
  if s.bufseg ≠ 0xffff then s
  else
    allocateLoop lowbuffer highbuffer (if s.nbuffers = 0 then 2 ^ 16 else s.nbuffers.toNat)
      s.firstbuf s

/-- The loop of `config_init_buffers`. -/
def linkBuffers : Nat → Nat → Links Nat → Links Nat × Nat
  | 0, pbuffer, k => (k, pbuffer)
  | i + 1, pbuffer, k =>
    let k : Links Nat := ⟨Function.update k.next pbuffer (pbuffer + bufferSize), k.prev⟩
    let pbuffer := pbuffer + bufferSize
    let k : Links Nat := ⟨k.next, Function.update k.prev pbuffer (pbuffer - bufferSize)⟩
    linkBuffers i pbuffer k

/-- `config_init_buffers`: how it links `buffers` buffers that lie one behind the other. -/
def configInitBuffers (pbuffer bufseg buffers : Nat) (k : Links Nat) (buf : β) (world : World β) :
    Ring β :=
  let k : Links Nat :=
    ⟨k.next, Function.update k.prev pbuffer (pbuffer + bufferSize * (buffers - 1))⟩
  let r := linkBuffers (buffers - 1) pbuffer k
  { links := ⟨Function.update r.1.next r.2 (r.2 - bufferSize * (buffers - 1)), r.1.prev⟩
    buf := fun bp => ⟨bp, 0, 0, Flags.none, 0, 0, 0, buf⟩
    firstbuf := pbuffer
    bufseg := bufseg
    nbuffers := UInt16.ofNat buffers
    world := world }

/-! ## The ring is a list of buffers -/

/-- The ring is the buffers at the offsets `L`, in this order, and they are those of `c`. -/
structure Shows (s : Ring β) (L : List Nat) (c : State β) : Prop where
  circle : Circle s.links L
  first : L.head? = some s.firstbuf
  count : L.length = s.nbuffers.toNat
  offs : ∀ x ∈ L, (s.buf x).fpOff = x
  bufs : c.bufs = L.map s.buf
  world : c.world = s.world

variable {s s' : Ring β} {L : List Nat} {c : State β}

theorem Shows.cons (h : Shows s L c) : ∃ l, L = s.firstbuf :: l := List.head?_eq_some_iff.mp h.first

/-- A loop over the ring goes over its buffers in their order. -/
theorem Shows.walk {σ ρ : Type*} (h : Shows s L c) (visit : σ → Nat → Except ρ σ) (t : σ) :
    walk s.links.next s.firstbuf visit ringFuel s.firstbuf t = some (L.foldlM visit t) := by
  obtain ⟨l, hl⟩ := h.cons
  have hlen := h.count
  have hcircle := h.circle
  rw [hl] at hlen hcircle ⊢
  refine walk_eq visit hcircle ?_ t
  have := s.nbuffers.toNat_lt
  simp only [List.length_cons, ringFuel] at hlen ⊢
  omega

/-! ## Moving a buffer to the front -/

/-- `move_buffer` takes the buffer out and puts it in again. -/
theorem moveBuffer_eq (k : Links Nat) {k' : Links Nat} {bp firstbp : Nat} (hne : bp ≠ firstbp)
    (hk' : k.join (k.prev bp) (k.next bp) = k') (hout : k'.prev firstbp ≠ bp) :
    moveBuffer k bp firstbp = (k'.join (k'.prev firstbp) bp).join bp firstbp := by
  have hprev : (Function.update k.prev (k.next bp) (k.prev bp)) bp = k.prev bp := by
    rw [Function.update_apply, ite_self]
  have hnext : Function.update k.next (k.prev bp) (k.next bp) = k'.next := by rw [← hk']; rfl
  have hprev' : Function.update k.prev (k.next bp) (k.prev bp) = k'.prev := by rw [← hk']; rfl
  simp only [moveBuffer, hprev, hnext, hprev', Links.join, Function.update_self,
    Function.update_of_ne hne]
  rw [Function.update_comm hout.symm]

/-- **`move_buffer` brings a buffer to the front** of the circle. -/
theorem circle_moveBuffer {k : Links Nat} {a b : Nat} {A B : List Nat}
    (h : Circle k (a :: A ++ b :: B)) : Circle (moveBuffer k b a) (b :: a :: (A ++ B)) := by
  have hout : b ∉ a :: (A ++ B) :=
    (List.nodup_cons.mp ((@List.perm_middle _ b (a :: A) B).nodup_iff.mp h.nodup)).1
  have hremoved : Circle (k.join (k.prev b) (k.next b)) (a :: (A ++ B)) :=
    Circle.remove (A := a :: A) h (List.cons_ne_nil _ _)
  rw [moveBuffer_eq k (List.ne_of_not_mem_cons hout) rfl]
  · exact hremoved.insert hout
  · intro heq
    have hmem := List.mem_of_getLast? hremoved.prev_first
    rw [heq] at hmem
    exact hout hmem

@[simp] theorem put_buf_self (s : Ring β) (x : Nat) (b : Buffer β) : (s.put x b).buf x = b :=
  Function.update_self ..

theorem put_buf_of_ne {x y : Nat} (h : y ≠ x) (b : Buffer β) : (s.put x b).buf y = s.buf y :=
  Function.update_of_ne h ..

/-- A buffer changes where it is. -/
theorem Shows.put (h : Shows s L c) {i x : Nat} (hx : L[i]? = some x) {b : Buffer β}
    (hb : b.fpOff = x) : Shows (s.put x b) L { c with bufs := c.bufs.set i b } where
  circle := h.circle
  first := h.first
  count := h.count
  offs y hy := by
    by_cases hyx : y = x
    · rw [hyx, put_buf_self, hb]
    · rw [put_buf_of_ne hyx, h.offs y hy]
  bufs := by
    obtain ⟨hi, hget⟩ := List.getElem?_eq_some_iff.mp hx
    refine List.ext_getElem (by simp [h.bufs]) fun j hj hj' => ?_
    rw [List.length_map] at hj'
    rw [List.getElem_map, List.getElem_set]
    split
    · rename_i hij
      subst hij
      rw [hget, put_buf_self]
    · rename_i hij
      have hne : L[j] ≠ x := fun heq =>
        hij ((h.circle.nodup.getElem_inj_iff).mp (hget.trans heq.symm))
      simp only [h.bufs, List.getElem_map, put_buf_of_ne hne]
  world := h.world

/-- The buffer at position `i` comes first, the others keep their order. -/
theorem Shows.toFront (h : Shows s L c) {i x : Nat} (hx : L[i]? = some x) :
    Shows (s.toFront x) (x :: L.eraseIdx i) { c with bufs := s.buf x :: c.bufs.eraseIdx i } := by
  obtain ⟨hi, hget⟩ := List.getElem?_eq_some_iff.mp hx
  have hperm := perm_eraseIdx hx
  have hbuf : (s.toFront x).buf = s.buf := by rw [Ring.toFront]; split <;> rfl
  refine ⟨?_, ?_, ?_, ?_, ?_, ?_⟩
  · rw [Ring.toFront]
    obtain ⟨l, rfl⟩ := h.cons
    split
    · rename_i hne
      -- a buffer behind the first one
      obtain ⟨j, rfl⟩ : ∃ j, i = j + 1 := Nat.exists_eq_succ_of_ne_zero fun h0 => hne (by
        subst h0
        exact (Option.some.inj hx).symm)
      have hsplit : l = l.take j ++ x :: l.drop (j + 1) := by
        rw [List.getElem?_cons_succ] at hx
        obtain ⟨hj, rfl⟩ := List.getElem?_eq_some_iff.mp hx
        simp
      rw [List.eraseIdx_cons_succ, List.eraseIdx_eq_take_drop_succ]
      exact circle_moveBuffer (by rw [List.cons_append, ← hsplit]; exact h.circle)
    · rename_i heq
      have h0 : 0 = i := (List.getElem?_inj (by simp) h.circle.nodup).mp
        (by rw [hx, not_not.mp heq]; rfl)
      rw [← h0, not_not.mp heq]
      exact h.circle
  · rw [Ring.toFront]
    split
    · rfl
    · rename_i hne
      rw [not_not.mp hne]; rfl
  · rw [← hperm.length_eq, h.count, Ring.toFront]
    split <;> rfl
  · intro y hy
    rw [hbuf]
    exact h.offs y (hperm.mem_iff.mpr hy)
  · simp only [hbuf, List.map_cons, ← List.eraseIdx_map, h.bufs]
  · rw [h.world, Ring.toFront]
    split <;> rfl

/-! ## Searching -/

/-- The offset `o` says what the position `i` says, of a buffer of the ring. -/
def Names (L : List Nat) (o : Nat) : Option Nat → Prop
  | none => o = 0
  | some i => o ≠ 0 ∧ L[i]? = some o

/-- The variables of the two searches say the same. -/
structure Vars.Shows (L : List Nat) (a : Vars) (c : Scan) : Prop where
  fatCount : a.fatCount = c.fatCount
  lastNonFat : Names L a.lastNonFat c.lastNonFat
  uncacheBuf : Names L a.uncacheBuf c.uncacheBuf

theorem names_kept {i x : Nat} {b : Buffer β} (hx : L[i]? = some x) (hb : b.fpOff = x) :
    Names L x (b.kept i) := by
  rw [Buffer.kept, hb]
  split
  · assumption
  · exact ⟨‹_›, hx⟩

theorem Vars.Shows.visit {a : Vars} {v : Scan} {x : Nat} {u : Option Nat} (ha : a.Shows L v)
    (hx : Names L x u) (fat uncache : Bool) :
    Vars.Shows L
      ⟨if fat then a.fatCount + 1 else a.fatCount, if fat then a.lastNonFat else x,
        if uncache then x else a.uncacheBuf⟩
      ⟨if fat then v.fatCount + 1 else v.fatCount, if fat then v.lastNonFat else u,
        if uncache then u else v.uncacheBuf⟩ where
  fatCount := by rw [ha.fatCount]
  lastNonFat := by
    cases fat
    · exact hx
    · exact ha.lastNonFat
  uncacheBuf := by
    cases uncache
    · exact ha.uncacheBuf
    · exact hx

/-- The search over the ring is the search over the list, from any buffer on. -/
theorem foldlM_searchVisit (buf : Nat → Buffer β) (blkno : UInt32) (dsk : Nat) {A B : List Nat}
    (hoffs : ∀ x ∈ B, (buf x).fpOff = x) {a : Vars} {v : Scan} (ha : a.Shows (A ++ B) v) :
    match scan blkno dsk (B.map buf) A.length v with
    | .inl i => ∃ x, (A ++ B)[i]? = some x ∧
      B.foldlM (searchVisit buf blkno dsk) a = Except.error x
    | .inr v' => ∃ a' : Vars, a'.Shows (A ++ B) v' ∧
      B.foldlM (searchVisit buf blkno dsk) a = Except.ok a' := by
  induction B generalizing A a v with
  | nil => exact ⟨a, ha, rfl⟩
  | cons x B ih =>
    have hx : (A ++ x :: B)[A.length]? = some x := by simp
    have hkept := names_kept hx (hoffs x List.mem_cons_self)
    rw [List.map_cons, scan, List.foldlM_cons, searchVisit]
    by_cases hholds : (buf x).holds blkno dsk = true
    · simp only [if_pos hholds]
      exact ⟨x, hx, rfl⟩
    · simp only [if_neg hholds]
      rw [List.append_cons A x B] at ha hkept ⊢
      have hnext := ih (A := A ++ [x]) (fun y hy => hoffs y (List.mem_cons_of_mem x hy))
        (ha.visit hkept (buf x).bFlag.fat (buf x).bFlag.uncache)
      rwa [List.length_append] at hnext

/-- The ring gives up the buffer that the list does. -/
theorem Shows.victim (h : Shows s L c) {a : Vars} {v : Scan} (ha : a.Shows L v) :
    L[replaced c.bufs v]? = some (s.victim a) := by
  have hlast : L[L.length - 1]? = some (s.links.prev s.firstbuf) := by
    obtain ⟨l, rfl⟩ := h.cons
    rw [← List.getLast?_eq_getElem?]
    exact h.circle.prev_first
  have hhead : c.bufs.head?.any (fun bp => bp.bFlag.fat) = (s.buf s.firstbuf).bFlag.fat := by
    rw [h.bufs, List.head?_map, h.first]
    rfl
  have hnone : ¬ (0 : Nat) ≠ 0 := fun hne => hne rfl
  rw [replaced, Ring.victim, hhead, ha.fatCount]
  cases hu : v.uncacheBuf with
  | some i =>
    obtain ⟨hne, hi⟩ : Names L a.uncacheBuf (some i) := hu ▸ ha.uncacheBuf
    rw [if_pos hne]
    exact hi
  | none =>
    have hu' : Names L a.uncacheBuf none := hu ▸ ha.uncacheBuf
    rw [if_neg (hu' ▸ hnone)]
    simp only [h.bufs, List.length_map]
    cases hf : v.lastNonFat with
    | some i =>
      obtain ⟨hne, hi⟩ : Names L a.lastNonFat (some i) := hf ▸ ha.lastNonFat
      by_cases hlow : (s.buf s.firstbuf).bFlag.fat = true ∧ v.fatCount < 3
      · rw [if_pos ⟨hlow.1, hlow.2, hne⟩]
        simpa [hlow] using hi
      · rw [if_neg fun hall => hlow ⟨hall.1, hall.2.1⟩]
        have hlow' : ((s.buf s.firstbuf).bFlag.fat && decide (v.fatCount < 3)) = false :=
          Bool.eq_false_iff.mpr fun hall => hlow (by simpa using hall)
        rw [hlow']
        exact hlast
    | none =>
      have hf' : Names L a.lastNonFat none := hf ▸ ha.lastNonFat
      rw [if_neg fun hall => hall.2.2 hf']
      split
      · cases ‹none = some _›
      · exact hlast

/-- **`searchblock` over the pointers** does what it does to the list, and changes one buffer. -/
theorem Shows.searchblock (h : Shows s L c) (blkno : UInt32) (dsk : Nat) :
    ∃ i x s' rest, s.searchblock blkno dsk = some (x, s') ∧
      Cache.searchblock blkno dsk c.bufs = some (i, s'.buf x, rest) ∧ L[i]? = some x ∧
      Shows s' (x :: L.eraseIdx i) { c with bufs := s'.buf x :: rest } ∧
      ∀ y, y ≠ x → s'.buf y = s.buf y := by
  -- the buffer found or given up, with the flag set or cleared
  have hmove : ∀ (i x : Nat) (u : Bool), L[i]? = some x →
      ∃ s' rest, (s.put x ((s.buf x).setUncache u)).toFront x = s' ∧
        (c.bufs[i]?.map fun bp =>
            (i, { bp with bFlag := { bp.bFlag with uncache := u } }, c.bufs.eraseIdx i)) =
          some (i, s'.buf x, rest) ∧
        Shows s' (x :: L.eraseIdx i) { c with bufs := s'.buf x :: rest } ∧
        ∀ y, y ≠ x → s'.buf y = s.buf y := by
    intro i x u hx
    have hoff := h.offs x (List.mem_of_getElem? hx)
    have hshow := (h.put hx (b := (s.buf x).setUncache u) hoff).toFront hx
    have hbuf : ((s.put x ((s.buf x).setUncache u)).toFront x).buf =
        (s.put x ((s.buf x).setUncache u)).buf := by rw [Ring.toFront]; split <;> rfl
    simp only [put_buf_self, List.eraseIdx_set_eq] at hshow
    refine ⟨_, c.bufs.eraseIdx i, rfl, ?_, ?_, ?_⟩
    · rw [h.bufs, List.getElem?_map, hx, hbuf, put_buf_self]
      rfl
    · rw [hbuf, put_buf_self]
      exact hshow
    · intro y hy
      rw [hbuf, put_buf_of_ne hy]
  have hsearch := foldlM_searchVisit (A := []) s.buf blkno dsk h.offs (a := ⟨0, 0, 0⟩)
    (v := ⟨0, none, none⟩) ⟨rfl, rfl, rfl⟩
  rw [Ring.searchblock, h.walk, Cache.searchblock, h.bufs]
  rw [← h.bufs, List.length_nil, List.nil_append] at hsearch
  rw [← h.bufs]
  cases hs : scan blkno dsk c.bufs 0 ⟨0, none, none⟩ with
  | inl i =>
    rw [hs] at hsearch
    obtain ⟨x, hx, hfold⟩ := hsearch
    obtain ⟨s', rest, heq, hlist, hshow, hframe⟩ := hmove i x false hx
    exact ⟨i, x, s', rest, by rw [hfold, ← heq], hlist, hx, hshow, hframe⟩
  | inr v =>
    rw [hs] at hsearch
    obtain ⟨a, ha, hfold⟩ := hsearch
    have hx := h.victim ha
    obtain ⟨s', rest, heq, hlist, hshow, hframe⟩ := hmove _ _ true hx
    exact ⟨_, _, s', rest, by rw [hfold, ← heq], hlist, hx, hshow, hframe⟩

theorem Shows.other {c' : State β} (h : Shows s L c) (hb : c'.bufs = c.bufs)
    (hw : c'.world = c.world) : Shows s L c' :=
  ⟨h.circle, h.first, h.count, h.offs, hb.trans h.bufs, hw.trans h.world⟩

theorem Shows.inWorld (h : Shows s L c) (w : World β) :
    Shows { s with world := w } L { c with world := w } :=
  ⟨h.circle, h.first, h.count, h.offs, h.bufs, rfl⟩

theorem Shows.flush1 (h : Shows s L c) {i x : Nat} (hx : L[i]? = some x) :
    Shows (s.flush1 x).2 L
      { c with
        bufs := c.bufs.set i (Cache.flush1 (s.buf x) s.world).2.1
        world := (Cache.flush1 (s.buf x) s.world).2.2 } :=
  (h.put hx (b := (Cache.flush1 (s.buf x) s.world).2.1)
    (h.offs x (List.mem_of_getElem? hx))).inWorld _

/-- **`getblk` over the pointers** does what it does to the list. -/
theorem Shows.getblk (h : Shows s L c) (blkno : UInt32) (dsk : Nat) (overwrite : Bool)
    (read : Option β) :
    ∃ i x r s', s.getblk blkno dsk overwrite read = some (r, s') ∧
      Shows s' (x :: L.eraseIdx i) (Cache.getblk c blkno dsk overwrite read).2 ∧
      L[i]? = some x ∧ r.map s'.buf = (Cache.getblk c blkno dsk overwrite read).1 ∧
      (∀ p, r = some p → p = x) ∧ (∀ y, y ≠ x → s'.buf y = s.buf y) ∧
      ∃ bp rest, Cache.searchblock blkno dsk c.bufs = some (i, bp, rest) := by
  obtain ⟨i, x, s', rest, hring, hlist, hx, hshow, hframe⟩ := h.searchblock blkno dsk
  have h0 : (x :: L.eraseIdx i)[0]? = some x := rfl
  rw [Ring.getblk, hring, Cache.getblk, hlist]
  dsimp only
  split
  · exact ⟨i, x, some x, s', rfl, hshow.other rfl rfl, hx, rfl, fun p hp => (Option.some.inj hp).symm,
      hframe, _, _, rfl⟩
  · have hflush := hshow.flush1 h0
    have hworld : s'.world = c.world := hshow.world.symm
    have hframe' : ∀ y, y ≠ x → (s'.flush1 x).2.buf y = s.buf y := fun y hy => by
      rw [Ring.flush1, ← hframe y hy]
      exact put_buf_of_ne hy _
    have hbuf : (s'.flush1 x).2.buf x = (Cache.flush1 (s'.buf x) s'.world).2.1 := put_buf_self ..
    have hok : (s'.flush1 x).1 = (Cache.flush1 (s'.buf x) s'.world).1 := rfl
    rw [hok, ← hworld]
    generalize (s'.flush1 x).2 = s₁ at hflush hframe' hbuf
    split
    · exact ⟨i, x, none, s₁, rfl, hflush.other rfl rfl, hx, rfl, fun p hp => (by cases hp), hframe',
        _, _, rfl⟩
    · generalize (if overwrite = true then none else read) = given
      cases given with
      | some garbage =>
        have hput := hflush.put h0 (b := { s₁.buf x with bBuffer := garbage })
          (hflush.offs x List.mem_cons_self)
        refine ⟨i, x, none, _, rfl, hput.other ?_ rfl, hx, rfl, fun p hp => (by cases hp),
          fun y hy => (put_buf_of_ne hy _).trans (hframe' y hy), _, _, rfl⟩
        rw [hbuf]
        rfl
      | none =>
        have hput := hflush.put h0 (b :=
          { s₁.buf x with
            bBuffer := if overwrite then (s₁.buf x).bBuffer else s₁.world.disk (dsk, blkno)
            bFlag := { Flags.none with valid := true, data := true }
            bUnit := dsk
            bBlkno := blkno }) (hflush.offs x List.mem_cons_self)
        refine ⟨i, x, some x, _, rfl, hput.other ?_ rfl, hx, ?_,
          fun p hp => (Option.some.inj hp).symm,
          fun y hy => (put_buf_of_ne hy _).trans (hframe' y hy), _, _, rfl⟩
        · rw [hbuf, ← hflush.world]
          rfl
        · rw [Option.map_some, put_buf_self, hbuf, ← hflush.world]

/-! ## Going round -/

/-- What a loop over the ring does with one buffer: `flush1` if it is selected, then `after`. -/
def Ring.visit (which : Buffer β → Bool) (after : Buffer β → Buffer β) (s : Ring β) (bp : Nat) :
    Ring β :=
  let s := if which (s.buf bp) then (s.flush1 bp).2 else s
  s.put bp (after (s.buf bp))

/-- The same for the list: the first step of `flushLoop`. -/
def visited (which : Buffer β → Bool) (b : Buffer β) (w : World β) : Bool × Buffer β × World β :=
  if which b then Cache.flush1 b w else (true, b, w)

theorem visited_fpOff (which : Buffer β → Bool) (b : Buffer β) (w : World β) :
    (visited which b w).2.1.fpOff = b.fpOff := by
  rw [visited]
  split <;> rfl

theorem visit_eq (which : Buffer β → Bool) (after : Buffer β → Buffer β) (s : Ring β) (x : Nat) :
    Ring.visit which after s x =
      { s.put x (after (visited which (s.buf x) s.world).2.1) with
        world := (visited which (s.buf x) s.world).2.2 } := by
  rw [Ring.visit, visited]
  split
  · simp only [Ring.flush1, Ring.put, Function.update_self, Function.update_idem]
  · rfl

/-- A loop over the ring is a loop over the list, from any buffer on. -/
theorem Shows.foldl_visit {which : Buffer β → Bool} {after : Buffer β → Buffer β}
    (hafter : ∀ b, (after b).fpOff = b.fpOff) {A B : List Nat} (h : Shows s (A ++ B) c) :
    Shows (B.foldl (Ring.visit which after) s) (A ++ B)
      { c with
        bufs := A.map s.buf ++ (flushLoop which after (B.map s.buf) s.world).2.1
        world := (flushLoop which after (B.map s.buf) s.world).2.2 } := by
  induction B generalizing A s c with
  | nil => exact h.other (by simp [h.bufs, flushLoop]) h.world.symm
  | cons x B ih =>
    have hx : (A ++ x :: B)[A.length]? = some x := by simp
    have hout : x ∉ A ++ B :=
      (List.nodup_cons.mp (List.perm_middle.nodup_iff.mp h.circle.nodup)).1
    have hoff := h.offs x (List.mem_of_getElem? hx)
    rw [List.foldl_cons, visit_eq, List.map_cons, flushLoop]
    change Shows _ _ { c with
      bufs := A.map s.buf ++ after (visited which (s.buf x) s.world).2.1 ::
        (flushLoop which after (B.map s.buf) (visited which (s.buf x) s.world).2.2).2.1
      world := (flushLoop which after (B.map s.buf) (visited which (s.buf x) s.world).2.2).2.2 }
    have hturn := (h.put hx (b := after (visited which (s.buf x) s.world).2.1)
      (by rw [hafter, visited_fpOff, hoff])).inWorld (visited which (s.buf x) s.world).2.2
    generalize visited which (s.buf x) s.world = r at hturn ⊢
    have hmap : ∀ l : List Nat, x ∉ l → l.map (s.put x (after r.2.1)).buf = l.map s.buf :=
      fun l hl => List.map_congr_left fun y hy => put_buf_of_ne (ne_of_mem_of_not_mem hy hl) _
    have hrest := ih (A := A ++ [x]) (by rw [← List.append_cons]; exact hturn)
    rw [← List.append_cons] at hrest
    refine hrest.other ?_ ?_
    · simp only [List.map_append, List.map_cons, List.map_nil, put_buf_self,
        hmap A (fun hmem => hout (List.mem_append_left B hmem)),
        hmap B (fun hmem => hout (List.mem_append_right A hmem)), List.append_assoc,
        List.singleton_append]
    · simp only [hmap B (fun hmem => hout (List.mem_append_right A hmem))]

/-- **A loop over the ring** is a loop over the list. -/
theorem Shows.around {which : Buffer β → Bool} {after : Buffer β → Buffer β}
    {visit : Ring β → Nat → Ring β} (h : Shows s L c)
    (hvisit : ∀ s bp, visit s bp = Ring.visit which after s bp)
    (hafter : ∀ b, (after b).fpOff = b.fpOff) :
    ∃ s', s.around visit = some s' ∧
      Shows s' L
        { c with
          bufs := (flushLoop which after c.bufs c.world).2.1
          world := (flushLoop which after c.bufs c.world).2.2 } := by
  obtain rfl : visit = Ring.visit which after := funext fun s => funext fun bp => hvisit s bp
  refine ⟨L.foldl (Ring.visit which after) s, ?_, ?_⟩
  · have hpure : ∀ (L : List Nat) (s : Ring β), L.foldlM (m := Except Empty)
        (fun s bp => .ok (Ring.visit which after s bp)) s =
          Except.ok (L.foldl (Ring.visit which after) s) := by
      intro L
      induction L with
      | nil => exact fun s => rfl
      | cons x L ih => exact fun s => ih _
    rw [Ring.around, h.walk, hpure]
  · rw [h.bufs, h.world]
    have hrun : Shows (L.foldl (Ring.visit which after) s) ([] ++ L) _ := h.foldl_visit hafter
    exact hrun

/-! ## Taking buffers out -/

theorem unlink_next (s : Ring β) (x : Nat) : (s.unlink x).links.next x = s.links.next x := by
  simp only [Ring.unlink]
  rw [Function.update_apply, ite_self]

/-- A buffer is taken out of the ring. -/
theorem Shows.unlink {A B : List Nat} {x : Nat} (h : Shows s (A ++ x :: B) c) (hne : A ++ B ≠ []) :
    Shows (s.unlink x) (A ++ B) { c with bufs := (A ++ B).map s.buf } := by
  have hnext : Function.update s.links.next (s.links.prev x) (s.links.next x) x =
      s.links.next x := by
    rw [Function.update_apply, ite_self]
  have hlinks : (s.unlink x).links = s.links.join (s.links.prev x) (s.links.next x) := by
    simp only [Ring.unlink, hnext]
    rfl
  have hnodup := List.perm_middle.nodup_iff.mp h.circle.nodup
  refine ⟨?_, ?_, ?_, fun y hy => ?_, rfl, h.world⟩
  · rw [hlinks]
    exact h.circle.remove hne
  · simp only [Ring.unlink, hnext]
    have hfirst := h.first
    cases A with
    | nil =>
      cases hfirst
      have hhead := h.circle.next_first
      cases B with
      | nil => exact absurd rfl hne
      | cons y B =>
        rw [if_pos rfl]
        exact hhead
    | cons a A =>
      cases hfirst
      rw [if_neg (List.ne_of_not_mem_cons (List.nodup_cons.mp hnodup).1)]
      rfl
  · have hcount := h.count
    rw [List.length_append, List.length_cons] at hcount
    have hone : (1 : UInt16) ≤ s.nbuffers := UInt16.le_iff_toNat_le.mpr (by
      rw [UInt16.toNat_one]
      omega)
    simp only [Ring.unlink]
    rw [UInt16.toNat_sub_of_le _ _ hone, List.length_append, UInt16.toNat_one]
    omega
  · exact h.offs y (List.perm_middle.mem_iff.mpr (List.mem_cons_of_mem x hy))

/-- The loop of `AllocateHMASpace`, which has come past the buffers `kept`. -/
theorem Shows.allocateLoop {lowbuffer highbuffer : Nat} {kept todo : List Nat} {bp : Nat}
    (h : Shows s (kept ++ todo) c) (hbp : (todo ++ kept).head? = some bp)
    (hspare : kept ≠ [] ∨ ∃ x ∈ todo, inArea lowbuffer highbuffer x = false) :
    ∃ c', Shows (Cache.allocateLoop lowbuffer highbuffer todo.length bp s)
        (kept ++ todo.filter fun x => !inArea lowbuffer highbuffer x) c' ∧
      ∀ x ∈ kept ++ todo.filter fun x => !inArea lowbuffer highbuffer x,
        (Cache.allocateLoop lowbuffer highbuffer todo.length bp s).buf x = s.buf x := by
  induction todo generalizing kept s c bp with
  | nil =>
    rw [List.filter_nil]
    exact ⟨c, h, fun _ _ => rfl⟩
  | cons x todo ih =>
    cases hbp
    have hx : (kept ++ x :: todo)[kept.length]? = some x := by simp
    have hround : (todo ++ kept ++ [x]).head? = some (s.links.next x) := h.circle.rotate.next_first
    rw [List.length_cons, Cache.allocateLoop]
    cases harea : inArea lowbuffer highbuffer x with
    | true =>
      simp only [if_true, List.filter_cons, harea, Bool.not_true, Bool.false_eq_true, if_false]
      have hspare' : kept ≠ [] ∨ ∃ y ∈ todo, inArea lowbuffer highbuffer y = false := by
        refine hspare.imp_right fun ⟨y, hy, hout⟩ => ⟨y, ?_, hout⟩
        refine (List.mem_cons.mp hy).resolve_left fun heq => ?_
        rw [heq, harea] at hout
        exact Bool.false_ne_true hout.symm
      have hne : kept ++ todo ≠ [] := fun hnil => by
        obtain ⟨rfl, rfl⟩ := List.append_eq_nil_iff.mp hnil
        rcases hspare' with hk | ⟨y, hy, -⟩
        · exact hk rfl
        · exact List.not_mem_nil hy
      have hout : x ∉ kept ++ todo :=
        (List.nodup_cons.mp (List.perm_middle.nodup_iff.mp h.circle.nodup)).1
      -- the buffer is out, and its own pointer still leads to the next one
      have hturn := (h.flush1 hx).unlink hne
      have hnext : ((s.flush1 x).2.unlink x).links.next x = s.links.next x := unlink_next _ x
      have hframe : ∀ y ∈ kept ++ todo, ((s.flush1 x).2.unlink x).buf y = s.buf y :=
        fun y hy => put_buf_of_ne (ne_of_mem_of_not_mem hy hout) _
      rw [List.head?_append_of_ne_nil _ (fun hnil => hne (List.append_eq_nil_iff.mpr
        (List.append_eq_nil_iff.mp hnil).symm))] at hround
      rw [hnext]
      obtain ⟨c', hshow, hbuf⟩ := ih hturn hround hspare'
      refine ⟨c', hshow, fun y hy => (hbuf y hy).trans (hframe y ?_)⟩
      exact List.mem_append.mpr ((List.mem_append.mp hy).imp_right List.mem_of_mem_filter)
    | false =>
      simp only [List.filter_cons, harea, Bool.not_false, if_true, Bool.false_eq_true, if_false]
      rw [List.append_cons] at h ⊢
      exact ih h (by rwa [List.append_assoc] at hround) (Or.inl (by simp))

/-- **`AllocateHMASpace`** takes the buffers in the area out of the ring, and changes no others, if
it leaves one. -/
theorem Shows.allocateHMASpace (h : Shows s L c) {lowbuffer highbuffer : Nat}
    (hspare : s.bufseg = 0xffff → ∃ x ∈ L, inArea lowbuffer highbuffer x = false) :
    ∃ L' c', L'.Sublist L ∧ Shows (s.allocateHMASpace lowbuffer highbuffer) L' c' ∧
      ∀ x ∈ L', (s.allocateHMASpace lowbuffer highbuffer).buf x = s.buf x := by
  rw [Ring.allocateHMASpace]
  split
  · exact ⟨L, c, List.Sublist.refl L, h, fun _ _ => rfl⟩
  · rename_i hseg
    obtain ⟨l, hl⟩ := h.cons
    have hcount : (if s.nbuffers = 0 then 2 ^ 16 else s.nbuffers.toNat) = L.length := by
      rw [h.count, if_neg]
      intro h0
      have := h.count
      rw [h0, hl] at this
      simp at this
    rw [hcount]
    have hshows : Shows s ([] ++ L) c := h
    have hloop := hshows.allocateLoop (by rw [List.append_nil, h.first])
      (Or.inr (hspare (not_not.mp hseg)))
    obtain ⟨c', hshow, hbuf⟩ := hloop
    exact ⟨_, c', List.filter_sublist, hshow, hbuf⟩

/-! ## No block twice -/

/-- No two valid buffers hold the same sector. -/
def Distinct (bufs : List (Buffer β)) : Prop :=
  bufs.Pairwise fun b c => b.bFlag.valid = true → c.bFlag.valid = true → b.key ≠ c.key

/-- The buffer `b'` is valid only for the sector that `b` is valid for. -/
def Keeps (b b' : Buffer β) : Prop :=
  b'.bFlag.valid = true → b.bFlag.valid = true ∧ b'.key = b.key

variable {b : Buffer β} {bufs bufs' rest : List (Buffer β)} {w : World β}

theorem Keeps.refl (b : Buffer β) : Keeps b b := fun hv => ⟨hv, rfl⟩

theorem Keeps.trans {b' b'' : Buffer β} (h : Keeps b b') (h' : Keeps b' b'') : Keeps b b'' :=
  fun hv => ⟨(h (h' hv).1).1, (h' hv).2.trans (h (h' hv).1).2⟩

theorem Distinct.perm (h : Distinct bufs) (hp : bufs.Perm bufs') : Distinct bufs' :=
  (hp.pairwise_iff fun hbc hc hb => (hbc hb hc).symm).mp h

/-- A sector that no valid buffer holds. -/
theorem Distinct.cons (h : Distinct bufs) (hnew : b.bFlag.valid = true →
    ∀ c ∈ bufs, c.bFlag.valid = true → b.key ≠ c.key) : Distinct (b :: bufs) :=
  List.pairwise_cons.mpr ⟨fun c hc hb hv => hnew hb c hc hv, h⟩

/-- Buffers that lose their sectors, or keep them. -/
theorem Distinct.keeps (h : Distinct bufs) (hkeeps : List.Forall₂ Keeps bufs bufs') :
    Distinct bufs' := by
  induction hkeeps with
  | nil => exact h
  | cons hb hrest ih =>
    obtain ⟨hhead, htail⟩ := List.pairwise_cons.mp h
    refine (ih htail).cons fun hv c' hc' hcv => ?_
    obtain ⟨c, hc, hkeep⟩ : ∃ c ∈ _, Keeps c c' := by
      obtain ⟨i, hi, rfl⟩ := List.mem_iff_getElem.mp hc'
      exact ⟨_, List.getElem_mem (hrest.length_eq ▸ hi), hrest.get (hrest.length_eq ▸ hi) hi⟩
    rw [(hb hv).2, (hkeep hcv).2]
    exact hhead c hc (hb hv).1 (hkeep hcv).1

theorem set_keeps {i : Nat} {b' : Buffer β} (hb : bufs[i]? = some b) (h : Keeps b b') :
    List.Forall₂ Keeps bufs (bufs.set i b') := by
  induction bufs generalizing i with
  | nil => exact List.Forall₂.nil
  | cons c bufs ih =>
    cases i with
    | zero =>
      cases hb
      exact List.Forall₂.cons h (List.forall₂_same.mpr fun c _ => Keeps.refl c)
    | succ i => exact List.Forall₂.cons (Keeps.refl c) (ih hb)

theorem flush1_keeps (b : Buffer β) (w : World β) : Keeps b (flush1 b w).2.1 := by
  intro hv
  rw [flush1] at hv ⊢
  dsimp only at hv ⊢
  split at hv
  · exact ⟨hv, rfl⟩
  · exact absurd hv Bool.false_ne_true

theorem flushLoop_keeps {which : Buffer β → Bool} {after : Buffer β → Buffer β}
    (hafter : ∀ b, Keeps b (after b)) (bufs : List (Buffer β)) (w : World β) :
    List.Forall₂ Keeps bufs (flushLoop which after bufs w).2.1 := by
  induction bufs generalizing w with
  | nil => exact List.Forall₂.nil
  | cons b bufs ih =>
    rw [flushLoop]
    refine List.Forall₂.cons (Keeps.trans ?_ (hafter _)) (ih _)
    split
    · exact flush1_keeps b w
    · exact Keeps.refl b

/-- What `getblk` makes of the buffer that `searchblock` has brought to the front. -/
theorem getblk_head {c : State β} {blkno : UInt32} {dsk i : Nat} {bp : Buffer β}
    (h : searchblock blkno dsk c.bufs = some (i, bp, rest)) (overwrite : Bool) (read : Option β) :
    ∃ b, (getblk c blkno dsk overwrite read).2.bufs = b :: rest ∧
      (Keeps bp b ∨ bp.bFlag.uncache = true ∧ b.key = (dsk, blkno)) ∧
      ∀ r, (getblk c blkno dsk overwrite read).1 = some r →
        r.bFlag.uncache = false ∧ (r = bp ∨ r.key = (dsk, blkno)) := by
  have hkeeps := flush1_keeps bp c.world
  rw [getblk, h]
  dsimp only
  split
  · rename_i hu
    exact ⟨bp, rfl, Or.inl (Keeps.refl bp), fun r hr =>
      ⟨by simpa [Option.some.inj hr] using hu, Or.inl (Option.some.inj hr).symm⟩⟩
  · rename_i hu
    split
    · exact ⟨_, rfl, Or.inl hkeeps, fun r hr => (by cases hr)⟩
    · generalize (if overwrite = true then none else read) = given
      cases given with
      | some garbage => exact ⟨_, rfl, Or.inl hkeeps, fun r hr => (by cases hr)⟩
      | none =>
        refine ⟨_, rfl, Or.inr ⟨by simpa using hu, rfl⟩, fun r hr => ?_⟩
        rw [← Option.some.inj hr]
        exact ⟨rfl, Or.inr rfl⟩

theorem getblk_distinct {c : State β} (h : Distinct c.bufs) (blkno : UInt32) (dsk : Nat)
    (overwrite : Bool) (read : Option β) :
    Distinct (getblk c blkno dsk overwrite read).2.bufs := by
  cases hs : searchblock blkno dsk c.bufs with
  | none =>
    rw [getblk, hs]
    exact h
  | some r =>
    obtain ⟨i, bp, rest⟩ := r
    obtain ⟨b, u, hb, -, rfl, hperm, hfound⟩ := searchblock_spec hs
    obtain ⟨b', heq, hhead, -⟩ := getblk_head hs overwrite read
    obtain ⟨hfirst, hrest⟩ := List.pairwise_cons.mp (h.perm hperm)
    rw [heq]
    refine Distinct.cons hrest fun hv d hd hdv => ?_
    rcases hhead with hkeep | ⟨hu, hkey⟩
    · obtain ⟨hbv, hbk⟩ := hkeep hv
      rw [hbk]
      exact hfirst d hd hbv hdv
    · -- the block was in none of the buffers
      obtain ⟨rfl, -⟩ | ⟨-, hno⟩ := hfound
      · exact absurd hu Bool.false_ne_true
      · intro hsame
        have hholds := holds_iff.mpr ⟨hdv, hsame.symm.trans hkey⟩
        rw [hno d (hperm.mem_iff.mpr (List.mem_cons_of_mem _ hd))] at hholds
        exact Bool.false_ne_true hholds

/-- The buffer that `getblk` returns has the block, and is not to be released. -/
theorem getblk_returned {c : State β} {blkno : UInt32} {dsk : Nat} {overwrite : Bool}
    {read : Option β} {r : Buffer β} (hr : (getblk c blkno dsk overwrite read).1 = some r) :
    r.bFlag.uncache = false ∧ r.key = (dsk, blkno) := by
  cases hs : searchblock blkno dsk c.bufs with
  | none =>
    rw [getblk, hs] at hr
    cases hr
  | some found =>
    obtain ⟨i, bp, rest⟩ := found
    obtain ⟨b, u, hb, -, rfl, hperm, hfound⟩ := searchblock_spec hs
    obtain ⟨-, -, -, hreturned⟩ := getblk_head hs overwrite read
    obtain ⟨hu, rfl | hkey⟩ := hreturned r hr
    · obtain ⟨-, hholds⟩ | ⟨hset, -⟩ := hfound
      · exact ⟨hu, (holds_iff.mp hholds).2⟩
      · exact absurd (hset.symm.trans hu) (by simp)
    · exact ⟨hu, hkey⟩

/-! ## Runs -/

/-- What is done with the ring. -/
inductive Call (β : Type*) where
  | getblk (blkno : UInt32) (dsk : Nat) (overwrite : Bool) (read : Option β)
  /-- A caller works on the buffer at `bp`. -/
  | touch (bp : Nat) (m : Mark) (data : Option β) (uncache : Bool)
  | flushBuffers (dsk : Nat)
  | flush
  | setinvld (dsk : Nat)
  | deleteBlockInBufferCache (blknolow blknohigh : UInt32) (dsk : Nat) (mode : XfrMode)
  | allocateHMASpace (lowbuffer highbuffer : Nat)

/-- The ring after a call; `none` if the call never returns. -/
def Ring.serve (s : Ring β) : Call β → Option (Ring β)
  | .getblk blkno dsk overwrite read => (s.getblk blkno dsk overwrite read).map (·.2)
  | .touch bp m data uncache => some (s.put bp ((s.buf bp).touch m data uncache))
  | .flushBuffers dsk => s.flushBuffers dsk
  | .flush => s.flush
  | .setinvld dsk => s.setinvld dsk
  | .deleteBlockInBufferCache blknolow blknohigh dsk mode =>
    s.deleteBlockInBufferCache blknolow blknohigh dsk mode
  | .allocateHMASpace lowbuffer highbuffer => some (s.allocateHMASpace lowbuffer highbuffer)

/-- The buffers that one gets to from `firstbuf`. -/
def Ring.reachable (s : Ring β) (bp : Nat) : Prop := ∃ i, s.links.next^[i] s.firstbuf = bp

/-- What callers see to: they work on buffers that hold a sector, and leave a buffer in the ring. -/
def Ring.allows (s : Ring β) : Call β → Prop
  | .touch bp _ _ _ => s.reachable bp ∧ (s.buf bp).bFlag.valid = true
  | .allocateHMASpace lowbuffer highbuffer =>
    s.bufseg = 0xffff → ∃ bp, s.reachable bp ∧ inArea lowbuffer highbuffer bp = false
  | _ => True

/-- The rings that calls lead to. -/
inductive Ring.Leads (s : Ring β) : Ring β → Prop
  | start : Ring.Leads s s
  | call {s' s'' : Ring β} (call : Call β) : Ring.Leads s s' → s'.allows call →
    s'.serve call = some s'' → Ring.Leads s s''

/-- The buffers that one gets to from `firstbuf` are `LoL_nbuffers` buffers in a circle, of which no
two are valid for the same sector. -/
def Ring.WellFormed (s : Ring β) : Prop :=
  ∃ L, Circle s.links L ∧ L.head? = some s.firstbuf ∧ L.length = s.nbuffers.toNat ∧
    (∀ bp, s.reachable bp ↔ bp ∈ L) ∧ Distinct (L.map s.buf)

/-! ## The ring at the start -/

/-- The loop of `config_init_buffers` lengthens a chain. -/
theorem linkBuffers_spec (i : Nat) {pbuffer : Nat} {k : Links Nat} {l : List Nat}
    (h : List.IsChain k.Joined (l ++ [pbuffer])) (hl : ∀ x ∈ l, x < pbuffer) :
    (linkBuffers i pbuffer k).2 = pbuffer + bufferSize * i ∧
      List.IsChain (linkBuffers i pbuffer k).1.Joined
        (l ++ List.range' pbuffer (i + 1) bufferSize) ∧
      ∀ y ≤ pbuffer, (linkBuffers i pbuffer k).1.prev y = k.prev y := by
  induction i generalizing pbuffer k l with
  | zero => exact ⟨rfl, h, fun _ _ => rfl⟩
  | succ i ih =>
    have hd : 0 < bufferSize := by decide
    rw [linkBuffers]
    dsimp only
    rw [Nat.add_sub_cancel]
    change (linkBuffers i (pbuffer + bufferSize) (k.join pbuffer (pbuffer + bufferSize))).2 = _ ∧
      List.IsChain
        (linkBuffers i (pbuffer + bufferSize) (k.join pbuffer (pbuffer + bufferSize))).1.Joined _ ∧ _
    have hchain : List.IsChain (k.join pbuffer (pbuffer + bufferSize)).Joined
        (l ++ [pbuffer] ++ [pbuffer + bufferSize]) := by
      rw [List.append_assoc, List.singleton_append, List.isChain_split, List.isChain_pair]
      refine ⟨isChain_join h ?_ ?_, joined_join ..⟩
      · rw [List.dropLast_concat]
        exact fun hmem => Nat.lt_irrefl _ (hl _ hmem)
      · intro hmem
        rcases List.mem_append.mp (List.mem_of_mem_tail hmem) with hmem | hmem
        · have := hl _ hmem
          omega
        · have := List.mem_singleton.mp hmem
          omega
    have hl' : ∀ x ∈ l ++ [pbuffer], x < pbuffer + bufferSize := by
      intro x hx
      rcases List.mem_append.mp hx with hx | hx
      · exact Nat.lt_add_right _ (hl x hx)
      · rw [List.mem_singleton.mp hx]
        omega
    obtain ⟨hlast, hjoined, hprev⟩ := ih hchain hl'
    refine ⟨by rw [hlast, Nat.mul_succ]; omega, ?_, fun y hy => ?_⟩
    · rw [List.append_assoc, List.singleton_append] at hjoined
      exact hjoined
    · refine (hprev y (by omega)).trans (Function.update_of_ne ?_ ..)
      omega

/-- **The buffers of `config_init_buffers` are a ring.** -/
theorem configInitBuffers_shows {pbuffer buffers : Nat} (h : 0 < buffers)
    (hfit : pbuffer + bufferSize * buffers ≤ 2 ^ 16) (bufseg : Nat) (k : Links Nat) (buf : β)
    (world : World β) :
    ∃ c, Shows (configInitBuffers pbuffer bufseg buffers k buf world)
      (List.range' pbuffer buffers bufferSize) c ∧ Distinct c.bufs := by
  obtain ⟨n, rfl⟩ := Nat.exists_eq_succ_of_ne_zero (Nat.ne_of_gt h)
  have hd : 0 < bufferSize := by decide
  generalize hk : (⟨k.next, Function.update k.prev pbuffer (pbuffer + bufferSize * n)⟩ :
    Links Nat) = k'
  have hfirst : k'.prev pbuffer = pbuffer + bufferSize * n := by
    rw [← hk]
    exact Function.update_self ..
  obtain ⟨hlast, hchain, hprev⟩ := linkBuffers_spec n (k := k') (l := [])
    (List.IsChain.singleton pbuffer) (fun x hx => absurd hx List.not_mem_nil)
  rw [List.nil_append] at hchain
  -- the last pointer closes the circle, as the first one already says
  have hclosed : (configInitBuffers pbuffer bufseg (n + 1) k buf world).links =
      (linkBuffers n pbuffer k').1.join (pbuffer + bufferSize * n) pbuffer := by
    rw [← hfirst, ← hprev pbuffer (Nat.le_refl _), Links.join, Function.update_eq_self,
      hprev pbuffer (Nat.le_refl _), hfirst]
    simp only [configInitBuffers, Nat.add_sub_cancel, hk, hlast]
  refine ⟨⟨(List.range' pbuffer (n + 1) bufferSize).map (configInitBuffers pbuffer bufseg (n + 1) k
    buf world).buf, world, []⟩, ⟨?_, rfl, ?_, fun x _ => rfl, rfl, rfl⟩, ?_⟩
  · rw [hclosed]
    have hnodup : (List.range' pbuffer (n + 1) bufferSize).Nodup := List.nodup_range' _ hd
    refine circle_join hnodup hchain ?_
    have hrange := @List.range'_concat bufferSize pbuffer n
    rw [List.range'_succ] at hrange
    rw [hrange, List.getLast?_concat]
  · rw [List.length_range']
    refine (UInt16.toNat_ofNat_of_lt' ?_).symm
    simp only [bufferSize] at hfit
    rw [UInt16.size]
    omega
  · refine List.pairwise_map.mpr (List.pairwise_of_forall fun x y hv => ?_)
    exact absurd hv Bool.false_ne_true

/-! ## Every run -/

/-- What holds of every ring that calls lead to. -/
def Ring.Sound (s : Ring β) : Prop := ∃ L c, Shows s L c ∧ Distinct c.bufs

theorem Shows.reachable_iff (h : Shows s L c) (bp : Nat) : s.reachable bp ↔ bp ∈ L := by
  obtain ⟨l, rfl⟩ := h.cons
  exact h.circle.iterate_iff

theorem Ring.Sound.wellFormed (h : s.Sound) : s.WellFormed := by
  obtain ⟨L, c, hshow, hdistinct⟩ := h
  exact ⟨L, hshow.circle, hshow.first, hshow.count, hshow.reachable_iff, hshow.bufs ▸ hdistinct⟩

/-- Loops over the ring that at most unmark buffers. -/
theorem Shows.around_sound (which : Buffer β → Bool) (after : Buffer β → Buffer β)
    {visit : Ring β → Nat → Ring β} (h : Shows s L c) (hc : Distinct c.bufs)
    (hvisit : ∀ s bp, visit s bp = Ring.visit which after s bp)
    (hafter : ∀ b, (after b).fpOff = b.fpOff) (hkeeps : ∀ b, Keeps b (after b)) :
    ∃ s', s.around visit = some s' ∧ s'.Sound := by
  obtain ⟨s', hrun, hshow⟩ := h.around hvisit hafter
  exact ⟨s', hrun, L, _, hshow, hc.keeps (flushLoop_keeps hkeeps _ _)⟩

theorem put_self (s : Ring β) (bp : Nat) : s.put bp (s.buf bp) = s := by
  rw [Ring.put, Function.update_eq_self]

/-- A loop that leaves the buffers alone after `flush1`. -/
theorem visit_id (which : Buffer β → Bool) (s : Ring β) (bp : Nat) :
    (if which (s.buf bp) then (s.flush1 bp).2 else s) = Ring.visit which id s bp :=
  (put_self _ bp).symm

/-- A loop that unmarks some buffers, and writes none. -/
theorem visit_unmark (p : Buffer β → Bool) (s : Ring β) (bp : Nat) :
    (if p (s.buf bp) then s.put bp { s.buf bp with bFlag := Flags.none } else s) =
      Ring.visit (fun _ => false) (fun b => if p b then { b with bFlag := Flags.none } else b) s
        bp := by
  simp only [Ring.visit, Bool.false_eq_true, if_false]
  split
  · rfl
  · rw [put_self]

theorem unmark_keeps (p : Buffer β → Bool) (b : Buffer β) :
    Keeps b (if p b then { b with bFlag := Flags.none } else b) := by
  split
  · exact fun hv => absurd hv Bool.false_ne_true
  · exact Keeps.refl b

/-- **Every call returns, and leaves a ring.** -/
theorem Ring.Sound.serve (h : s.Sound) {call : Call β} (ha : s.allows call) :
    ∃ s', s.serve call = some s' ∧ s'.Sound := by
  obtain ⟨L, c, hshow, hc⟩ := h
  have hunmark : ∀ p : Buffer β → Bool, ∃ s', s.around (fun s bp =>
      if p (s.buf bp) then s.put bp { s.buf bp with bFlag := Flags.none } else s) = some s' ∧
        s'.Sound := fun p => by
    refine hshow.around_sound _ _ hc (fun s bp => visit_unmark p s bp) (fun b => ?_)
      (unmark_keeps p)
    split <;> rfl
  have hflush : ∀ p : Buffer β → Bool, ∃ s', s.around (fun s bp =>
      if p (s.buf bp) then (s.flush1 bp).2 else s) = some s' ∧ s'.Sound := fun p =>
    hshow.around_sound _ _ hc (fun s bp => visit_id p s bp) (fun _ => rfl) Keeps.refl
  cases call with
  | getblk blkno dsk overwrite read =>
    obtain ⟨i, x, r, s', hrun, hshow', -⟩ := hshow.getblk blkno dsk overwrite read
    exact ⟨s', by rw [Ring.serve, hrun]; rfl, _, _, hshow', getblk_distinct hc ..⟩
  | touch bp m data uncache =>
    obtain ⟨hreach, hv⟩ := ha
    obtain ⟨i, hi⟩ := List.mem_iff_getElem?.mp ((hshow.reachable_iff bp).mp hreach)
    have hoff : ((s.buf bp).touch m data uncache).fpOff = (s.buf bp).fpOff := by cases m <;> rfl
    refine ⟨_, rfl, L, _, hshow.put hi (hoff.trans (hshow.offs bp (List.mem_of_getElem? hi))),
      hc.keeps (set_keeps (b := s.buf bp) ?_ fun _ => ⟨hv, (touch_key _ m data uncache).1⟩)⟩
    rw [hshow.bufs, List.getElem?_map, hi]
    rfl
  | flushBuffers dsk => exact hflush fun b => b.bUnit == dsk
  | flush =>
    exact hshow.around_sound (fun _ => true)
      (fun b => { b with bFlag := { b.bFlag with valid := false } }) hc (fun s bp => rfl)
      (fun _ => rfl) fun b hv => absurd hv Bool.false_ne_true
  | setinvld dsk => exact hunmark fun b => b.bUnit == dsk
  | deleteBlockInBufferCache blknolow blknohigh dsk mode =>
    cases mode with
    | read => exact hflush fun b => b.inRange blknolow blknohigh dsk
    | write => exact hunmark fun b => b.inRange blknolow blknohigh dsk
  | allocateHMASpace lowbuffer highbuffer =>
    obtain ⟨L', c', hsub, hshow', hbuf⟩ := hshow.allocateHMASpace (fun hseg => by
      obtain ⟨bp, hbp, hout⟩ := ha hseg
      exact ⟨bp, (hshow.reachable_iff bp).mp hbp, hout⟩)
    refine ⟨_, rfl, L', c', hshow', ?_⟩
    rw [hshow'.bufs, List.map_congr_left hbuf]
    rw [hshow.bufs] at hc
    exact List.Pairwise.sublist (hsub.map s.buf) hc

/-- **The calls of `getblk` for two blocks** one after the other return two buffers. -/
theorem Ring.Sound.getblk_getblk (h : s.Sound) (hn : 1 < s.nbuffers.toNat)
    {blkno blkno' : UInt32} {dsk dsk' : Nat} {overwrite overwrite' : Bool} {read read' : Option β}
    {p : Nat} {r : Option Nat} {s₁ s₂ : Ring β} (hne : (dsk, blkno) ≠ (dsk', blkno'))
    (h₁ : s.getblk blkno dsk overwrite read = some (some p, s₁))
    (h₂ : s₁.getblk blkno' dsk' overwrite' read' = some (r, s₂)) :
    r ≠ some p ∧ s₂.buf p = s₁.buf p := by
  obtain ⟨L, c, hshow, -⟩ := h
  obtain ⟨i, x, r₁, s', hrun, hshow₁, hx, hret, hp, -, -⟩ :=
    hshow.getblk blkno dsk overwrite read
  rw [h₁] at hrun
  cases hrun
  obtain rfl : p = x := hp p rfl
  obtain ⟨hu, hkey⟩ := getblk_returned hret.symm
  obtain ⟨i', x', r₂, s', hrun, -, hx', -, hp', hframe, bp, rest, hsearch⟩ :=
    hshow₁.getblk blkno' dsk' overwrite' read'
  rw [h₂] at hrun
  cases hrun
  -- the first buffer is not the one that the second call takes
  have hi' : i' ≠ 0 := by
    refine searchblock_keeps_first (b := s₁.buf p) ?_ ?_ hu ?_ hsearch
    · rw [hshow₁.bufs, List.length_map, ← (perm_eraseIdx hx).length_eq, hshow.count]
      exact hn
    · rw [hshow₁.bufs]
      rfl
    · exact Bool.eq_false_iff.mpr fun hholds => hne (hkey.symm.trans (holds_iff.mp hholds).2)
  have hne' : p ≠ x' := by
    rintro rfl
    exact hi' ((List.getElem?_inj (List.getElem?_eq_some_iff.mp hx').1 hshow₁.circle.nodup).mp hx')
  exact ⟨fun hr => hne' (hp' p hr), hframe p hne'⟩

theorem Ring.Leads.sound (hs : s.Sound) (h : s.Leads s') : s'.Sound := by
  induction h with
  | start => exact hs
  | call call _ ha hrun ih =>
    obtain ⟨s'', hrun', hsound⟩ := ih.serve ha
    rw [hrun] at hrun'
    cases hrun'
    exact hsound

/-- **The buffers are always one ring** without a sector twice, in which every call finds its way,
and two blocks that are asked for one after the other are in two buffers; as long as
`AllocateHMASpace` leaves a buffer. -/
theorem run_wellFormed {pbuffer bufseg buffers : Nat} {k : Links Nat} {buf : β} {world : World β}
    (hpos : 0 < buffers) (hfit : pbuffer + bufferSize * buffers ≤ 2 ^ 16)
    (h : (configInitBuffers pbuffer bufseg buffers k buf world).Leads s) :
    s.WellFormed ∧ (∀ call, s.allows call → (s.serve call).isSome = true) ∧
      ∀ (blkno blkno' : UInt32) (dsk dsk' : Nat) (overwrite overwrite' : Bool)
        (read read' : Option β) (p : Nat) (r : Option Nat) (s₁ s₂ : Ring β),
        (dsk, blkno) ≠ (dsk', blkno') → 1 < s.nbuffers.toNat →
        s.getblk blkno dsk overwrite read = some (some p, s₁) →
        s₁.getblk blkno' dsk' overwrite' read' = some (r, s₂) →
        r ≠ some p ∧ s₂.buf p = s₁.buf p := by
  obtain ⟨c, hstart⟩ := configInitBuffers_shows hpos hfit bufseg k buf world
  have hs : s.Sound := Ring.Leads.sound ⟨_, c, hstart⟩ h
  refine ⟨hs.wellFormed, fun call ha => ?_, fun _ _ _ _ _ _ _ _ _ _ _ _ hne hn h₁ h₂ =>
    hs.getblk_getblk hn hne h₁ h₂⟩
  obtain ⟨s', hrun, -⟩ := hs.serve ha
  rw [hrun]
  rfl

/-- Six buffers in the HMA, whose pointers were 0. -/
def sixBuffers : Ring Nat :=
  configInitBuffers 0x4000 0xffff 6 ⟨fun _ => 0, fun _ => 0⟩ 0 ⟨fun _ => 0, [], false⟩

/-- The last of them is given away, and a block is read. -/
theorem run_wellFormed_sixBuffers :
    (sixBuffers.allocateHMASpace 0x4a64 0xffff).nbuffers = 5 ∧
      (sixBuffers.allocateHMASpace 0x4a64 0xffff).WellFormed ∧
      ((sixBuffers.allocateHMASpace 0x4a64 0xffff).serve (.getblk 1 0 false none)).isSome = true :=
  have h := run_wellFormed (by decide) (by decide) (.call (.allocateHMASpace 0x4a64 0xffff) .start
    (fun _ => ⟨sixBuffers.firstbuf, ⟨0, rfl⟩, by decide +kernel⟩) rfl)
  ⟨by decide +kernel, h.1, h.2.1 (.getblk 1 0 false none) trivial⟩

/-- All of them are given away: `firstbuf` stays where it was. -/
theorem allocateHMASpace_all :
    ∃ s : Ring Nat, sixBuffers.serve (.allocateHMASpace 0x4000 0xffff) = some s ∧
      ¬ s.WellFormed := by
  refine ⟨_, rfl, ?_⟩
  rintro ⟨L, hcircle, -, hcount, -⟩
  have hzero : (sixBuffers.allocateHMASpace 0x4000 0xffff).nbuffers = 0 := by decide +kernel
  rw [hzero] at hcount
  exact hcircle.ne_nil (List.length_eq_zero_iff.mp hcount)

end Cache
end BurdahDos
