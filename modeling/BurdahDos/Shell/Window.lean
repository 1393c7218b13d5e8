import BurdahDos.Shell.Read
import Mathlib

/-!
# The window of a batch file

`getbline` keeps a window of the file in the line buffer, with a newline behind it.  What is in the
window, followed by what is behind the position in the file, is what has not been read: `getbline`
moves bytes from the one to the other, and `readbatchline` takes a line off the front.
-/

set_option autoImplicit false

namespace BurdahDos
namespace Shell

/-! ## Bytes of the buffer -/

/-- The `n` bytes from `a`. -/
def bytesAt (buf : Buf) (a n : ℕ) : List UInt8 := (List.range n).map fun i => buf (a + i)

@[simp] theorem bytesAt_length (buf : Buf) (a n : ℕ) : (bytesAt buf a n).length = n := by
  simp [bytesAt]

@[simp] theorem bytesAt_getElem (buf : Buf) (a n i : ℕ) (h : i < (bytesAt buf a n).length) :
    (bytesAt buf a n)[i] = buf (a + i) := by
  simp [bytesAt]

theorem mem_bytesAt {buf : Buf} {a n : ℕ} {c : UInt8} :
    c ∈ bytesAt buf a n ↔ ∃ i < n, buf (a + i) = c := by
  simp [bytesAt]

theorem bytesAt_congr {buf buf' : Buf} {a a' n : ℕ} (h : ∀ i < n, buf (a + i) = buf' (a' + i)) :
    bytesAt buf a n = bytesAt buf' a' n :=
  List.map_congr_left fun i hi => h i (List.mem_range.mp hi)

theorem bytesAt_add (buf : Buf) (a m n : ℕ) :
    bytesAt buf a (m + n) = bytesAt buf a m ++ bytesAt buf (a + m) n := by
  rw [bytesAt, List.range_add, List.map_append, List.map_map]
  refine congrArg _ (List.map_congr_left fun i _ => ?_)
  rw [Function.comp_apply, Nat.add_assoc]

theorem map_range_eq_bytesAt (buf : Buf) (n : ℕ) : (List.range n).map buf = bytesAt buf 0 n :=
  List.map_congr_left fun i _ => by rw [Nat.zero_add]

/-- `readTo` puts the bytes behind those that are there. -/
theorem bytesAt_readTo (buf : Buf) (n : ℕ) (bytes : List UInt8) :
    bytesAt (readTo buf n bytes) 0 (n + bytes.length) = bytesAt buf 0 n ++ bytes := by
  rw [bytesAt_add]
  congr 1
  · refine bytesAt_congr fun i hi => ?_
    rw [readTo, if_neg (by omega)]
  · refine List.ext_getElem (by simp) fun i hi hi' => ?_
    rw [bytesAt_getElem, readTo, if_pos (by omega), List.getD_eq_getElem _ _ (by omega)]
    congr 1
    omega

/-- The byte behind the window is not one of it. -/
theorem bytesAt_update (buf : Buf) (a n m : ℕ) (c : UInt8) (h : m < a ∨ a + n ≤ m) :
    bytesAt (Function.update buf m c) a n = bytesAt buf a n :=
  bytesAt_congr fun i hi => Function.update_of_ne (by omega) c buf

/-! ## What has not been read -/

/-- The bytes of the window that have not been passed. -/
def ahead (buf : Buf) (size len : ℕ) : List UInt8 :=
  if len = 0 then [] else bytesAt buf len (size - len)

/-- There is a newline behind the window, unless nothing is left of that. -/
def Guarded (buf : Buf) (size len bufsize : ℕ) : Prop :=
  len = 0 ∨ size ≤ len ∨ buf size = nl ∧ size ≤ bufsize

theorem ahead_eq_nil {buf : Buf} {size len : ℕ} (h : len = 0 ∨ size ≤ len) :
    ahead buf size len = [] := by
  rw [ahead]
  split
  · rfl
  · rw [Nat.sub_eq_zero_of_le (h.resolve_left ‹_›)]
    rfl

theorem ahead_length_le (buf : Buf) (size len : ℕ) : (ahead buf size len).length ≤ size - len := by
  rw [ahead]
  split
  · exact Nat.zero_le _
  · exact (bytesAt_length _ _ _).le

/-- What `getbline` returns, with `u` not read before. -/
structure Window (data u : List UInt8) (bufsize : ℕ) (got : Got) : Prop where
  unread : bytesAt got.buf 0 got.size ++ data.drop got.pos = u
  guard : got.buf got.size = nl
  size_le : got.size ≤ bufsize
  ret : got.ret = got.size
  /-- A line ends in the window, or there is no room in it, or there is nothing to put there. -/
  full : (∃ i < got.size, got.buf i = 0 ∨ got.buf i = nl) ∨ got.size = bufsize ∨
    data.drop got.pos = []

theorem fill_window (data : List UInt8) (pos : ℕ) (buf : Buf) {size bufsize : ℕ}
    (h : size < bufsize) :
    Window data (bytesAt buf 0 size ++ data.drop pos) bufsize (fill data pos buf size bufsize) := by
  have hlen : ((data.drop pos).take (bufsize - size)).length =
      min (bufsize - size) (data.length - pos) := by
    rw [List.length_take, List.length_drop]
  rw [fill, if_pos h]
  refine ⟨?_, Function.update_self _ _ _, ?_, rfl, Or.inr ?_⟩
  · dsimp only
    rw [bytesAt_update _ _ _ _ _ (by omega), bytesAt_readTo, List.append_assoc]
    refine congrArg _ ?_
    rw [← List.drop_drop, hlen, ← List.length_drop]
    rcases Nat.le_total (bufsize - size) (data.drop pos).length with hle | hle
    · rw [Nat.min_eq_left hle, List.take_append_drop]
    · rw [Nat.min_eq_right hle, List.take_of_length_le hle, List.drop_length, List.append_nil]
  · dsimp only
    omega
  · dsimp only
    rw [List.drop_eq_nil_iff]
    omega

theorem textlineEnd_isSome {buf : Buf} {buflen : ℕ} (h : (textlineEnd buf buflen).isSome) :
    ∃ i < buflen - 1, buf i = 0 ∨ buf i = nl := by
  rw [textlineEnd, List.find?_isSome] at h
  obtain ⟨i, hi, hp⟩ := h
  exact ⟨i, List.mem_range.mp hi, by simpa using hp⟩

/-- **`getbline` reads on**: it changes nothing about what has not been read. -/
theorem getbline_window (data : List UInt8) (pos : ℕ) {buf : Buf} {size len bufsize : ℕ}
    (hpos : 0 < bufsize) (hg : Guarded buf size len bufsize) :
    Window data (ahead buf size len ++ data.drop pos) bufsize
      (getbline data pos buf size len bufsize) := by
  rw [getbline]
  split
  · rename_i hnone
    rw [ahead_eq_nil hnone]
    exact fill_window data pos buf hpos
  · rename_i hsome
    rw [not_or, Nat.not_le] at hsome
    obtain ⟨hguard, hle⟩ := (hg.resolve_left hsome.1).resolve_left (Nat.not_le.mpr hsome.2)
    have hmove : ahead buf size len =
        bytesAt (memmove buf len (size - len + 1)) 0 (size - len) := by
      rw [ahead, if_neg hsome.1]
      refine bytesAt_congr fun i hi => ?_
      rw [memmove, if_pos (by omega), Nat.zero_add]
    dsimp only
    rw [hmove]
    split
    · rename_i hend
      obtain ⟨i, hi, hline⟩ := textlineEnd_isSome hend
      refine ⟨rfl, ?_, by dsimp only; omega, rfl, Or.inl ⟨i, by dsimp only; omega, hline⟩⟩
      dsimp only
      rw [memmove, if_pos (by omega), show len + (size - len) = size by omega]
      exact hguard
    · exact fill_window data pos _ (by omega)

/-! ## The next line -/

section Line

variable {data u : List UInt8} {bufsize : ℕ} {got : Got}

theorem Window.eq_nil (h : Window data u bufsize got) (hpos : 0 < bufsize) :
    got.ret = 0 ↔ u = [] := by
  rw [h.ret]
  constructor
  · intro hsize
    rcases h.full with ⟨i, hi, -⟩ | hfull | hend
    · omega
    · omega
    · rw [← h.unread, hsize, hend]
      rfl
  · rintro rfl
    have hlen := congrArg List.length h.unread
    rw [List.length_append, bytesAt_length, List.length_nil] at hlen
    omega

/-- A line ends behind the window at the latest. -/
theorem Window.memchrNl (h : Window data u bufsize got) :
    ∃ e, memchrNl got.buf (bufsize + 1) = some e ∧ e ≤ got.size ∧ got.buf e = nl ∧
      ∀ i < e, got.buf i ≠ nl := by
  have hsome : (Shell.memchrNl got.buf (bufsize + 1)).isSome := by
    rw [Shell.memchrNl, List.find?_isSome]
    have hle := h.size_le
    exact ⟨got.size, List.mem_range.mpr (by omega), by simpa using h.guard⟩
  obtain ⟨e, he⟩ := Option.isSome_iff_exists.mp hsome
  have hfind := he
  rw [Shell.memchrNl, List.find?_range_eq_some] at hfind
  obtain ⟨hnl, -, hbefore⟩ := hfind
  have hbefore : ∀ i < e, got.buf i ≠ nl := fun i hi => by simpa using hbefore i hi
  refine ⟨e, he, ?_, by simpa using hnl, hbefore⟩
  by_contra hlt
  exact hbefore got.size (by omega) h.guard

theorem Window.length_unread (h : Window data u bufsize got) :
    got.size + (data.drop got.pos).length = u.length := by
  rw [← h.unread, List.length_append, bytesAt_length]

/-- A line ends in time. -/
theorem Window.textlineEnd (h : Window data u bufsize got) (hnul : ∀ c ∈ u, c ≠ 0) {e : ℕ}
    (he : ∀ i < e, got.buf i ≠ nl) (hle : e ≤ got.size)
    (hend : (textlineEnd got.buf (bufsize + 1)).isSome) : e < bufsize := by
  have hwin : ∀ i < got.size, got.buf i ≠ 0 := fun i hi => by
    refine hnul _ (h.unread ▸ List.mem_append_left _ (mem_bytesAt.mpr ⟨i, hi, ?_⟩))
    rw [Nat.zero_add]
  obtain ⟨i, hi, hline⟩ := textlineEnd_isSome hend
  have hsize := h.size_le
  rcases Nat.lt_or_ge i got.size with hlt | hge
  · have hnl := hline.resolve_left (hwin i hlt)
    have hei : e ≤ i := Nat.le_of_not_lt fun hie => he i hie hnl
    omega
  · omega

/-- **The line is the next one of the file**, and what is behind it is not read yet. -/
theorem Window.line (h : Window data u bufsize got) (hnul : ∀ c ∈ u, c ≠ 0) {e : ℕ}
    (hnl : got.buf e = nl) (he : ∀ i < e, got.buf i ≠ nl) (hle : e ≤ got.size)
    (hend : (Shell.textlineEnd got.buf (bufsize + 1)).isSome) :
    bytesAt got.buf 0 e = u.takeWhile (· != nl) ∧
      bytesAt got.buf (e + 1) (got.size - (e + 1)) ++ data.drop got.pos = u.drop (e + 1) := by
  have hlt := h.textlineEnd hnul he hle hend
  have hbefore : ∀ c ∈ bytesAt got.buf 0 e, (c != nl) = true := fun c hc => by
    obtain ⟨i, hi, rfl⟩ := mem_bytesAt.mp hc
    rw [Nat.zero_add]
    simpa using he i hi
  rcases Nat.lt_or_ge e got.size with hin | hout
  · have hsplit : bytesAt got.buf 0 got.size =
        bytesAt got.buf 0 e ++ nl :: bytesAt got.buf (e + 1) (got.size - (e + 1)) := by
      conv_lhs => rw [show got.size = e + (1 + (got.size - (e + 1))) by omega]
      rw [bytesAt_add, bytesAt_add, Nat.zero_add]
      refine congrArg _ ?_
      rw [show bytesAt got.buf e 1 = [nl] from congrArg (· :: []) hnl]
      rfl
    rw [← h.unread, hsplit, List.append_assoc, List.cons_append]
    constructor
    · rw [List.takeWhile_append_of_pos hbefore, List.takeWhile_cons_of_neg (by decide),
        List.append_nil]
    · rw [← List.drop_drop, List.drop_left' (bytesAt_length _ _ _)]
      rfl
  · -- The end of the file is the end of the line.
    have heq : e = got.size := Nat.le_antisymm hle hout
    subst heq
    have hall : data.drop got.pos = [] := by
      rcases h.full with ⟨i, hi, hline | hline⟩ | hfull | hnone
      · refine absurd hline (hnul _ (h.unread ▸ List.mem_append_left _ (mem_bytesAt.mpr ⟨i, hi, ?_⟩)))
        rw [Nat.zero_add]
      · exact absurd hline (he i hi)
      · omega
      · exact hnone
    have hu : u = bytesAt got.buf 0 got.size := by rw [← h.unread, hall, List.append_nil]
    rw [hu, hall]
    constructor
    · rw [List.takeWhile_eq_self_iff.mpr hbefore]
    · rw [Nat.sub_eq_zero_of_le (Nat.le_succ _), List.drop_eq_nil_of_le (by simp)]
      rfl

end Line

end Shell
end BurdahDos
