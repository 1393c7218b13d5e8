import BurdahDos.Lib.Int16
import Mathlib

/-!
# DIR

What `portal/cmd/dir.c` makes of the entries that it finds: their order, their numbers and sizes,
and `convert` of `portal/lib/num_fmt.c`.  A `long` has 32 bits and an `int` has 16.  There is enough
memory, and nobody presses Ctrl-C.

What the searches find is a `Tree`.  How an entry is displayed is left out, and so are the header
and the number of free bytes.
-/

set_option autoImplicit false

namespace BurdahDos
namespace Listing

abbrev Str := List UInt8

/-- `struct ffblk` -/
structure Ffblk where
  attrib : UInt8
  ftime : UInt16
  fdate : UInt16
  /-- A `long`, as its bits. -/
  fsize : UInt32
  name : Str
deriving DecidableEq

/-- `FA_DIREC` -/
def faDirec : UInt8 := 0x10
/-- `FA_DEVICE` -/
def faDevice : UInt8 := 0x40

def Ffblk.isDir (f : Ffblk) : Bool := f.attrib &&& faDirec != 0

/-- What the searches find in a directory: the entries that match the pattern, and the directories
in it. -/
inductive Tree where
  | node (found : List Ffblk) (subs : List Tree)

/-! ## The order -/

/-- `ORDER_BY_SIZE` -/
def orderBySize : UInt8 := 2
/-- `ORDER_BY_DATE` -/
def orderByDate : UInt8 := 4
/-- `ORDER_BY_NAME` -/
def orderByName : UInt8 := 8
/-- `ORDER_BY_EXT` -/
def orderByExt : UInt8 := 0x10
/-- `ORDER_INVERSE` -/
def orderInverse : UInt8 := 0x01
/-- `ORDER_DIRS_FIRST` -/
def orderDirsFirst : UInt8 := 0x20
/-- `ORDER_DIRS_LAST` -/
def orderDirsLast : UInt8 := 0x40
/-- `ORDER_BY_MASK` -/
def orderByMask : UInt8 := 0x1e

/-- `optOdir` and `optOorderby`. -/
structure Order where
  dir : UInt8
  /-- It has 5 elements. -/
  orderby : List UInt8
  /-- There was a store behind the end of `optOorderby`. -/
  outside : Bool
deriving DecidableEq

/-- The variables at the first `restart`. -/
def Order.none : Order := ⟨0, List.replicate 5 0, false⟩

/-- What `restart` leaves of the variables. -/
def Order.restart (o : Order) : Order := { Order.none with outside := o.outside }

/-- The loop over `optOorderby`: the array, and where it ends. -/
def removeLoop (option : UInt8) : ℕ → ℕ → List UInt8 → List UInt8 × ℕ
  | 0, i, orderby => (orderby, i)
  | n + 1, i, orderby =>
    if orderby.getD i 0 = 0 then (orderby, i)
    else if orderby.getD i 0 &&& orderByMask = option then
      -- the last element stays where it is
      removeLoop option n (i + 1) (orderby.take i ++ orderby.drop (i + 1) ++ orderby.drop 4)
    else removeLoop option n (i + 1) orderby

/-- A key is moved behind the others. -/
def Order.add (o : Order) (option : UInt8) (inverse : Bool) : Order :=
  let r := removeLoop option 5 0 o.orderby
  { o with
    orderby := r.1.set r.2 (option ||| if inverse then orderInverse else 0)
    outside := o.outside || decide (5 ≤ r.2) }

/-- `toupper` -/
def toupper (c : UInt8) : UInt8 := if 97 ≤ c ∧ c ≤ 122 then c - 32 else c

/-- The loop of `scanOrder`, with the character in front; `none` is `E_Useage`. -/
def scanLoop : UInt8 → Str → Order → Option Order
  | _, [], o => some o
  | before, c :: p, o =>
    let inverse := before == 45
    if c = 45 then scanLoop c p o
    else if toupper c = 83 then scanLoop c p (o.add orderBySize inverse)
    else if toupper c = 68 then scanLoop c p (o.add orderByDate inverse)
    else if toupper c = 78 then scanLoop c p (o.add orderByName inverse)
    else if toupper c = 69 then scanLoop c p (o.add orderByExt inverse)
    else if toupper c = 71 then
      scanLoop c p { o with dir := if inverse then orderDirsLast else orderDirsFirst }
    else if toupper c = 85 then scanLoop c p o.restart
    else Option.none

/-- `scanOrder`, for the character in front of the text, and the one in front of
`DEFAULT_SORT_ORDER` in memory. -/
def scanOrder (before beforeDefault : UInt8) (p : Str) : Option Order :=
  if p = [] then scanLoop beforeDefault [78, 71] .none else scanLoop before p .none

/-- `optO` -/
def Order.isSome (o : Order) : Bool := o.orderby.getD 0 0 ||| o.dir != 0

/-- `strcmp` -/
def strcmp : Str → Str → ℤ
  | [], [] => 0
  | [], _ :: _ => -1
  | _ :: _, [] => 1
  | a :: s, b :: t => if a < b then -1 else if b < a then 1 else strcmp s t

/-- A `long` of 32 bits. -/
def long (n : UInt32) : ℤ := (n.toNat : ℤ).bmod (2 ^ 32)

/-- `ff_name` from its first dot on. -/
def Ffblk.ext (f : Ffblk) : Option Str :=
  if 46 ∈ f.name then some (f.name.dropWhile (· != 46)) else Option.none

/-- The comparison for one key; `none` goes on with the next key at once. -/
def compareBy (option : UInt8) (f g : Ffblk) : Option ℤ :=
  if option = orderBySize then
    some (if long g.fsize < long f.fsize then 1 else if long f.fsize < long g.fsize then -1 else 0)
  else if option = orderByDate then
    let rv := int16 (f.fdate.toNat - g.fdate.toNat)
    some (if rv = 0 then int16 (f.ftime.toNat - g.ftime.toNat) else rv)
  else if option = orderByExt then
    match f.ext, g.ext with
    | Option.none, Option.none => Option.none
    | some x, some y => some (strcmp x y)
    | Option.none, some _ => some (-1)
    | some _, Option.none => some 1
  else if option = orderByName then some (strcmp f.name g.name)
  else some 0

/-- The loop of `orderFunction`.  It goes on as long as `rv` is 0, so that it is left with a
difference or by the `return`. -/
def orderLoop (f g : Ffblk) : List UInt8 → ℤ
  | [] => 0
  | opt :: orderby =>
    if opt &&& orderByMask = 0 then 0
    else
      match compareBy (opt &&& orderByMask) f g with
      | Option.none => orderLoop f g orderby
      | some rv =>
        let rv := if opt &&& orderInverse ≠ 0 then int16 (-rv) else rv
        if rv = 0 then orderLoop f g orderby else rv

/-- `orderFunction` -/
def orderFunction (o : Order) (f g : Ffblk) : ℤ :=
  if o.dir ≠ 0 ∧ f.isDir ≠ g.isDir then
    if (if o.dir &&& orderDirsFirst ≠ 0 then f.isDir else g.isDir) then -1 else 1
  else orderLoop f g o.orderby

/-! ## Numbers -/

/-- `bignum` -/
structure Bignum where
  low : ℕ
  billions : ℕ
deriving DecidableEq

/-- `bignum_add` -/
def bignumAdd (big toAdd : Bignum) : Bignum :=
  let billions := (big.billions + toAdd.billions) % 2 ^ 16
  let low := (big.low + toAdd.low) % 2 ^ 32
  if 10 ^ 9 ≤ low then ⟨low - 10 ^ 9, (billions + 1) % 2 ^ 16⟩ else ⟨low, billions⟩

/-- The size of a file. -/
def Ffblk.bignum (f : Ffblk) : Bignum := ⟨f.fsize.toNat % 10 ^ 9, f.fsize.toNat / 10 ^ 9⟩

/-- The loop of `convert`: what is in `temp`, from its end.  There is room for 31 characters; `none`
is a store in front of `temp`. -/
def convertLoop (sep : UInt8) : ℕ → ℕ → ℕ → Str → Option Str
  | 0, _, _, _ => Option.none
  | fuel + 1, num, billions, temp =>
    let temp := if (temp.length + 1) % 4 = 0 then temp ++ [sep] else temp
    let temp := temp ++ [UInt8.ofNat (num % 10 + 48)]
    let num := num / 10
    let last := temp.length = 11 ∧ num = 0
    let r := if last then (billions, 0) else (num, billions)
    if 31 < temp.length then Option.none
    else if r.1 ≠ 0 ∨ r.2 ≠ 0 then convertLoop sep fuel r.1 r.2 temp
    else some temp

/-- `convert`, to a buffer of 32 characters; `none` is a store outside of it or of `temp`. -/
def convert (sep : UInt8) (num billions : ℕ) : Option Str :=
  if num = 0 then some [48]
  else
    match convertLoop sep 32 num billions [] with
    | Option.none => Option.none
    | some temp =>
      let des := temp.reverse.takeWhile (· != 0)
      if 32 < des.length + 1 then Option.none else some des

/-! ## A directory -/

/-- The options, and what is outside of the program. -/
structure Options where
  order : Order
  /-- `/S` -/
  optS : Bool
  /-- `/B` -/
  optB : Bool
  attrMask : ℕ
  attrMatch : ℕ
  /-- `MAX_ORDER` -/
  maxOrder : ℕ
  /-- `qsort`, with a comparison of indices. -/
  qsort : (ℕ → ℕ → ℤ) → List ℕ → List ℕ
  /-- The thousands separator. -/
  sep : UInt8

/-- What is printed. -/
inductive Line where
  | entry (f : Ffblk)
  /-- The number of files and that of bytes. -/
  | summary (files bytes : Option Str)
  | total (files bytes : Option Str)
  | fileNotFound
deriving DecidableEq

/-- Numbers of directories and files, and their bytes. -/
structure Counts where
  dirs : ℕ
  files : ℕ
  bytes : Bignum

/-- The entry is listed: it matches the attributes, and is no device. -/
def Options.listed (o : Options) (f : Ffblk) : Bool :=
  (f.attrib.toNat &&& o.attrMask == o.attrMatch) && f.attrib != faDevice

/-- An entry is counted. -/
def Counts.count (c : Counts) (f : Ffblk) : Counts :=
  if f.isDir then { c with dirs := (c.dirs + 1) % 2 ^ 32 }
  else { c with files := (c.files + 1) % 2 ^ 32, bytes := bignumAdd c.bytes f.bignum }

/-- `flushOrder` -/
def flushOrder (o : Options) (orderArray : List Ffblk) : List Line :=
  let entry (i : ℕ) : Ffblk := orderArray.getD i ⟨0, 0, 0, 0, []⟩
  (o.qsort (fun i j => orderFunction o.order (entry i) (entry j))
    (List.range orderArray.length)).map fun i => .entry (entry i)

/-- The entries are displayed, or put into the array first. -/
def display (o : Options) : List Ffblk → List Ffblk → List Line
  | orderArray, [] => flushOrder o orderArray
  | orderArray, f :: fs =>
    if o.maxOrder ≤ orderArray.length + 1 then
      flushOrder o (orderArray ++ [f]) ++ display o [] fs
    else display o (orderArray ++ [f]) fs

/-- What is displayed of the entries. -/
def entries (o : Options) (fs : List Ffblk) : List Line :=
  if o.order.isSome then display o [] fs else fs.map .entry

/-- `print_summary` -/
def printSummary (o : Options) (c : Counts) : List Line :=
  if o.optB then []
  else [.summary (convert o.sep c.files 0) (convert o.sep c.bytes.low c.bytes.billions)]

/-- `print_total` -/
def printTotal (o : Options) (c : Counts) : List Line :=
  if o.optB then []
  else [.total (convert o.sep c.files 0) (convert o.sep c.bytes.low c.bytes.billions)]

def Counts.zero : Counts := ⟨0, 0, 0, 0⟩

/-- The counts of a directory in it are added. -/
def Counts.add (c d : Counts) : Counts :=
  ⟨(c.dirs + d.dirs) % 2 ^ 32, (c.files + d.files) % 2 ^ 32, bignumAdd c.bytes d.bytes⟩

/-- What `dir_list` prints of the directory itself. -/
def listed (o : Options) (fs : List Ffblk) (c : Counts) : List Line :=
  entries o fs ++
    if c.files ≠ 0 ∨ c.dirs ≠ 0 then printSummary o c
    else if o.optS then [] else [.fileNotFound]

mutual

/-- `dir_list`: what is printed, and the counts. -/
def dirList (o : Options) : Tree → List Line × Counts
  | .node found subs =>
    let fs := found.filter o.listed
    let c := fs.foldl Counts.count .zero
    if o.optS then
      let r := dirLists o subs c
      (listed o fs c ++ r.1, r.2)
    else (listed o fs c, c)

/-- The directories in a directory. -/
def dirLists (o : Options) : List Tree → Counts → List Line × Counts
  | [], c => ([], c)
  | t :: ts, c =>
    let r := dirList o t
    let q := dirLists o ts (c.add r.2)
    (r.1 ++ q.1, q.2)

end

/-- `dir_print_body` -/
def dirPrintBody (o : Options) (t : Tree) : List Line :=
  let r := dirList o t
  let c := Counts.add .zero r.2
  r.1 ++ if o.optS then (if c.files ≠ 0 then printTotal o c else [.fileNotFound]) else []

end Listing
end BurdahDos
