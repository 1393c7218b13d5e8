import BurdahDos.Share.Spec
import Mathlib

/-!
# SHARE: which opens may coexist

An entry opened with a deny mode asks that no other open entry of its file have the access it
denies.  `do_open_check` decides about a new open by looking at one other entry of the file, the
first in the table, and there at the modes of the *first* open, which every later open of the file
inherits.  So two later openers are never compared with each other.

What holds of the code is therefore split in two.

* `ModesInv` is what `open_check` and `close_file` do keep: entries of one file agree on the first
  modes, and each of them either has these modes or was let in by them.
* From this, `not_clash_of_proceeds` reads off the tables that a new entry clashes with nothing as
  long as the first modes are not among the four `looseFirst` ones.  Under a loose first mode it
  takes a look at the later openers as well, which is what `OpenOk` asks and the code does not do.

`conflictFree_iff` says that nothing else can go wrong: the deny modes are respected all along a
run exactly if every request of it is `OpenOk` in the tables it meets.
-/

set_option autoImplicit false

namespace BurdahDos
namespace Share

/-! ## Deny modes -/

/-- The sharing mode denies write access to others. -/
def deniesWrite (sharemode : Nat) : Bool := sharemode == shareDenyWrite || sharemode == shareDenyAll

/-- The sharing mode denies read access to others. -/
def deniesRead (sharemode : Nat) : Bool := sharemode == shareDenyRead || sharemode == shareDenyAll

/-- The open mode allows writing. -/
def allowsWrite (openmode : Nat) : Bool := openmode == openWriteOnly || openmode == openReadWrite

/-- The open mode allows reading. -/
def allowsRead (openmode : Nat) : Bool := openmode == openReadOnly || openmode == openReadWrite

/-- An entry in sharing mode `sharemode` denies access that the open mode `openmode` of another
entry grants. -/
def clash (sharemode openmode : Nat) : Bool :=
  deniesWrite sharemode && allowsWrite openmode || deniesRead sharemode && allowsRead openmode

/-- No two entries in use on the same file clash. -/
def ConflictFree (s : Tables) : Prop :=
  ∀ (i j : Nat) (p q : FileT), i ≠ j → s.fileTable[i]? = some p → s.fileTable[j]? = some q →
    p.inUse → q.inUse → p.filename = q.filename → clash p.sharemode q.openmode = false

/-! ## What the two tables let in -/

/-- The first modes that let in two openers which clash with each other: compatibility/read,
deny-read/read, deny-none/read and deny-none/write. -/
def looseFirst (firstSharemode firstOpenmode : Nat) : Bool :=
  firstSharemode == shareCompat && firstOpenmode == openReadOnly ||
  firstSharemode == shareDenyRead && firstOpenmode == openReadOnly ||
  firstSharemode == shareDenyNone && (firstOpenmode == openReadOnly ||
    firstOpenmode == openWriteOnly)

set_option synthInstance.maxSize 512 in
/-- Under first modes that are not loose, an open that proceeds clashes neither with the first
opener nor with any other open that proceeded. -/
theorem not_clash_of_proceeds : ∀ fs < 5, ∀ fo < 3, ∀ cs < 5, ∀ co < 3, ∀ qs < 5, ∀ qo < 3,
    (!looseFirst fs fo && proceeds fs fo cs co &&
      (qs == fs && qo == fo || proceeds fs fo qs qo)) = true →
    (clash cs qo || clash qs co) = false := by
  decide +kernel

/-! ## What every run keeps -/

/-- The modes of the entries in use: in range, agreed on the first ones within a file, and each
either those first ones or let in by them. -/
structure ModesInv (s : Tables) : Prop where
  range : ∀ p ∈ s.fileTable, p.inUse = true → p.sharemode < 5 ∧ p.openmode < 3 ∧
    p.firstSharemode < 5 ∧ p.firstOpenmode < 3
  admitted : ∀ p ∈ s.fileTable, p.inUse = true →
    (p.sharemode = p.firstSharemode ∧ p.openmode = p.firstOpenmode) ∨
      proceeds p.firstSharemode p.firstOpenmode p.sharemode p.openmode = true
  agree : ∀ p ∈ s.fileTable, ∀ q ∈ s.fileTable, p.inUse = true → q.inUse = true →
    p.filename = q.filename →
    p.firstSharemode = q.firstSharemode ∧ p.firstOpenmode = q.firstOpenmode

theorem Shrinks.mem {s s' : Tables} (h : Shrinks s s') {p : FileT} (hp : p ∈ s'.fileTable)
    (hu : p.inUse = true) : p ∈ s.fileTable := by
  obtain ⟨i, hi⟩ := List.mem_iff_getElem?.mp hp
  exact List.mem_of_getElem? (h i p hi hu)

theorem ModesInv.shrinks {s s' : Tables} (hi : ModesInv s) (h : Shrinks s s') : ModesInv s' where
  range p hp hu := hi.range p (h.mem hp hu) hu
  admitted p hp hu := hi.admitted p (h.mem hp hu) hu
  agree p hp q hq hu hv := hi.agree p (h.mem hp hu) q (h.mem hq hv) hu hv

theorem ConflictFree.shrinks {s s' : Tables} (hc : ConflictFree s) (h : Shrinks s s') :
    ConflictFree s' :=
  fun i j p q hij hp hq hu hv => hc i j p q hij (h i p hp hu) (h j q hq hv) hu hv

/-- The tables start without an entry in use. -/
theorem not_inUse_init {n m : Nat} {p : FileT} (hp : p ∈ (initTables n m).fileTable) :
    ¬ p.inUse = true := by
  rw [List.eq_of_mem_replicate hp]
  decide

theorem modesInv_init (n m : Nat) : ModesInv (initTables n m) where
  range _ hp hu := absurd hu (not_inUse_init hp)
  admitted _ hp hu := absurd hu (not_inUse_init hp)
  agree _ hp _ _ hu := absurd hu (not_inUse_init hp)

theorem conflictFree_init (n m : Nat) : ConflictFree (initTables n m) :=
  fun _ _ _ _ _ hp _ hu => absurd hu (not_inUse_init (List.mem_of_getElem? hp))

/-- An entry after `open_check` has put a request in is the new one or an old one. -/
theorem Entered.mem {s : Tables} {filename : Filename} {psp : UInt16} {om sm k fs fo : Nat}
    (h : Entered s filename psp om sm k fs fo) {p : FileT}
    (hp : p ∈ (openCheck s filename psp om sm).2.fileTable) :
    p = newEntry filename psp om sm fs fo ∨ p ∈ s.fileTable := by
  rw [h.table] at hp
  exact (List.mem_or_eq_of_mem_set hp).symm

/-- The first modes recorded for a new entry are those of every entry of its file. -/
theorem Entered.agree {s : Tables} {filename : Filename} {psp : UInt16} {om sm k fs fo : Nat}
    (h : Entered s filename psp om sm k fs fo) (hi : ModesInv s) {q : FileT} (hq : q ∈ s.fileTable)
    (hu : q.inUse = true) (hn : q.filename = filename.chars) :
    q.firstSharemode = fs ∧ q.firstOpenmode = fo := by
  rcases h.first with ⟨-, -, hno⟩ | ⟨-, p, hp, hpu, hpn, rfl, rfl⟩
  · exact absurd hn (hno q hq hu)
  · exact hi.agree q hq p hp hu hpu (hn.trans hpn.symm)

theorem Entered.range {s : Tables} {filename : Filename} {psp : UInt16} {om sm k fs fo : Nat}
    (h : Entered s filename psp om sm k fs fo) (hi : ModesInv s) : fs < 5 ∧ fo < 3 := by
  rcases h.first with ⟨rfl, rfl, -⟩ | ⟨-, p, hp, hpu, -, rfl, rfl⟩
  · exact ⟨normSharemode_lt sm, normOpenmode_lt om⟩
  · exact ⟨(hi.range p hp hpu).2.2.1, (hi.range p hp hpu).2.2.2⟩

theorem Entered.inv {s : Tables} {filename : Filename} {psp : UInt16} {om sm k fs fo : Nat}
    (h : Entered s filename psp om sm k fs fo) (hi : ModesInv s) :
    ModesInv (openCheck s filename psp om sm).2 where
  range p hp hu := by
    rcases h.mem hp with rfl | hp
    · exact ⟨normSharemode_lt sm, normOpenmode_lt om, h.range hi⟩
    · exact hi.range p hp hu
  admitted p hp hu := by
    rcases h.mem hp with rfl | hp
    · rcases h.first with ⟨rfl, rfl, -⟩ | ⟨hpr, -⟩
      · exact Or.inl ⟨rfl, rfl⟩
      · exact Or.inr hpr
    · exact hi.admitted p hp hu
  agree p hp q hq hu hv hn := by
    rcases h.mem hp with rfl | hp <;> rcases h.mem hq with rfl | hq
    · exact ⟨rfl, rfl⟩
    · obtain ⟨h1, h2⟩ := h.agree hi hq hv hn.symm
      exact ⟨h1.symm, h2.symm⟩
    · exact h.agree hi hp hu hn
    · exact hi.agree p hp q hq hu hv hn

/-- A request other than an open only takes entries out. -/
theorem shrinks_serve (s : Tables) {r : Request}
    (hr : ∀ filename psp om sm, r ≠ .openCheck filename psp om sm) :
    Shrinks s (serve s r) := by
  cases r with
  | openCheck filename psp om sm => exact absurd rfl (hr filename psp om sm)
  | closeFile fileno => exact shrinks_closeFile s fileno
  | accessCheck psp fileno ofs len allowcriter =>
    exact shrinks_accessCheck s psp fileno ofs len allowcriter
  | lockUnlock psp fileno ofs len unlock =>
    intro i p hp _
    rwa [serve, innerHandler, lockUnlock_fileTable] at hp

theorem ModesInv.step {s : Tables} (hi : ModesInv s) (r : Request) : ModesInv (serve s r) := by
  cases r with
  | openCheck filename psp om sm =>
    rcases openCheck_cases s filename psp om sm with ⟨-, h, -⟩ | ⟨k, fs, fo, h⟩
    · exact hi.shrinks h.shrinks
    · exact h.inv hi
  | closeFile fileno => exact hi.shrinks (shrinks_serve s (by simp))
  | accessCheck => exact hi.shrinks (shrinks_serve s (by simp))
  | lockUnlock => exact hi.shrinks (shrinks_serve s (by simp))

/-! ## When the deny modes are respected -/

/-- What a request must satisfy in the tables it meets.  Only an open that finds a free slot and its
file open under loose first modes which let it in has to satisfy anything: that neither its modes
nor those of an open entry of the file deny what the other one has. -/
def OpenOk (s : Tables) : Request → Prop
  | .openCheck filename _ om sm =>
    (∃ p ∈ s.fileTable, p.inUse = false) →
    ∀ p ∈ s.fileTable, p.inUse = true → p.filename = filename.chars →
      looseFirst p.firstSharemode p.firstOpenmode = true →
      proceeds p.firstSharemode p.firstOpenmode (normSharemode sm) (normOpenmode om) = true →
      ∀ q ∈ s.fileTable, q.inUse = true → q.filename = filename.chars →
        clash (normSharemode sm) q.openmode = false ∧ clash q.sharemode (normOpenmode om) = false
  | _ => True

/-- The new entry clashes with no entry of its file. -/
theorem Entered.not_clash {s : Tables} {filename : Filename} {psp : UInt16} {om sm k fs fo : Nat}
    (h : Entered s filename psp om sm k fs fo) (hi : ModesInv s)
    (hok : OpenOk s (.openCheck filename psp om sm)) {q : FileT} (hq : q ∈ s.fileTable)
    (hu : q.inUse = true) (hn : q.filename = filename.chars) :
    clash (normSharemode sm) q.openmode = false ∧ clash q.sharemode (normOpenmode om) = false := by
  obtain ⟨rfl, rfl⟩ := h.agree hi hq hu hn
  have hpr : proceeds q.firstSharemode q.firstOpenmode (normSharemode sm) (normOpenmode om)
      = true := by
    rcases h.first with ⟨-, -, hno⟩ | ⟨hpr, -⟩
    · exact absurd hn (hno q hq hu)
    · exact hpr
  cases hl : looseFirst q.firstSharemode q.firstOpenmode with
  | true =>
    obtain ⟨p, hp, hpu⟩ := h.slot
    exact hok ⟨p, List.mem_of_getElem? hp, hpu⟩ q hq hu hn hl hpr q hq hu hn
  | false =>
    obtain ⟨h1, h2, h3, h4⟩ := hi.range q hq hu
    have := not_clash_of_proceeds _ h3 _ h4 _ (normSharemode_lt sm) _ (normOpenmode_lt om) _ h1 _ h2
      (by rcases hi.admitted q hq hu with ⟨e1, e2⟩ | h <;> simp_all)
    simpa using this

theorem ConflictFree.step {s : Tables} (hc : ConflictFree s) (hi : ModesInv s) {r : Request}
    (hok : OpenOk s r) : ConflictFree (serve s r) := by
  cases r with
  | closeFile fileno => exact hc.shrinks (shrinks_serve s (by simp))
  | accessCheck => exact hc.shrinks (shrinks_serve s (by simp))
  | lockUnlock => exact hc.shrinks (shrinks_serve s (by simp))
  | openCheck filename psp om sm =>
    rcases openCheck_cases s filename psp om sm with ⟨-, h, -⟩ | ⟨k, fs, fo, h⟩
    · exact hc.shrinks h.shrinks
    · intro i j p q hij hp hq hu hv hn
      rw [serve, innerHandler, h.table, List.getElem?_set] at hp hq
      split at hp <;> split at hq
      · omega
      · split at hp <;> cases hp
        exact (h.not_clash hi hok (List.mem_of_getElem? hq) hv hn.symm).1
      · split at hq <;> cases hq
        exact (h.not_clash hi hok (List.mem_of_getElem? hp) hu hn).2
      · exact hc i j p q hij hp hq hu hv hn

/-- A request that is not `OpenOk` ends the peace: it is let in and clashes. -/
theorem not_conflictFree_of_not_openOk {s : Tables} (hi : ModesInv s) {r : Request}
    (hok : ¬ OpenOk s r) : ¬ ConflictFree (serve s r) := by
  cases r with
  | closeFile => exact absurd trivial hok
  | accessCheck => exact absurd trivial hok
  | lockUnlock => exact absurd trivial hok
  | openCheck filename psp om sm =>
    simp only [OpenOk, not_forall] at hok
    obtain ⟨hfree, p, hp, hpu, hpn, -, hpr, q, hq, hqu, hqn, hclash⟩ := hok
    rcases openCheck_cases s filename psp om sm with ⟨-, -, hre⟩ | ⟨k, fs, fo, h⟩
    · -- every entry of the file has the first modes of `p`, which let the request in
      obtain ⟨p', hp', hpu', hpn', hno⟩ := hre hfree
      obtain ⟨e1, e2⟩ := hi.agree p' hp' p hp hpu' hpu (hpn'.trans hpn.symm)
      rw [e1, e2, hpr] at hno
      exact absurd hno (by decide)
    · intro hc
      obtain ⟨j, hj⟩ := List.mem_iff_getElem?.mp hq
      obtain ⟨e, he, heu⟩ := h.slot
      have hjk : j ≠ k := by
        rintro rfl
        rw [hj] at he; cases he; rw [heu] at hqu; exact absurd hqu (by decide)
      have hk : k < s.fileTable.length := (List.getElem?_eq_some_iff.mp he).1
      have hnew : (serve s (.openCheck filename psp om sm)).fileTable[k]? =
          some (newEntry filename psp om sm fs fo) := by
        rw [serve, innerHandler, h.table, List.getElem?_set_self hk]
      have hold : (serve s (.openCheck filename psp om sm)).fileTable[j]? = some q := by
        rw [serve, innerHandler, h.table, List.getElem?_set_ne (Ne.symm hjk), hj]
      have hnu := newEntry_inUse filename psp om sm fs fo
      exact hclash ⟨hc k j _ _ (Ne.symm hjk) hnew hold hnu hqu hqn.symm,
        hc j k _ _ hjk hold hnew hqu hnu hqn⟩

/-- **Deny modes, exactly.**  From empty tables no two open entries ever clash, at any point of a
run, if and only if every request of the run is `OpenOk` in the tables it meets. -/
theorem conflictFree_iff (fileTableSize lockTableSize : Nat) (reqs : List Request) :
    (∀ pre, pre <+: reqs → ConflictFree (run (initTables fileTableSize lockTableSize) pre)) ↔
      Along serve OpenOk (initTables fileTableSize lockTableSize) reqs :=
  always_iff (fun _ r hi _ => hi.step r)
    (fun _ _ hi _ hc => ⟨fun h => not_not.mp fun hok => not_conflictFree_of_not_openOk hi hok h,
      hc.step hi⟩)
    (modesInv_init _ _) (conflictFree_init _ _) (along_true _ _)

/-- Three opens of one file: deny-none for reading, deny-write for reading and writing, deny-none
for writing.  The third is compared with the first only, and ends up writing to a file that the
second denies writing to. -/
def thirdOpener : List Request :=
  [.openCheck fileA 1 openReadOnly shareDenyNone,
   .openCheck fileA 2 openReadWrite shareDenyWrite,
   .openCheck fileA 3 openWriteOnly shareDenyNone]

theorem thirdOpener_conflict : ¬ ∀ (fileTableSize lockTableSize : Nat) (reqs : List Request),
    ConflictFree (run (initTables fileTableSize lockTableSize) reqs) := by
  intro h
  have h3 := h 15 20 thirdOpener 1 2 _ _ (by decide) rfl rfl (by decide) (by decide) (by decide)
  exact absurd h3 (by decide)

end Share
end BurdahDos
