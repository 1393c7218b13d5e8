import Mathlib

/-!
# File control blocks

`kernel/fcbfns.c`: the functions of CP/M, which know a file by a block of data in the memory of the
program.  The numbers in it are `UWORD`s and `ULONG`s, and `unsigned` is a `UWORD`.

The functions work through the system file table, the search for directory entries and `truename`;
what these answer is a parameter here.
-/

set_option autoImplicit false

namespace BurdahDos
namespace Fcbs

/-- `FCB_SUCCESS` -/
def fcbSuccess : UInt8 := 0
/-- `FCB_ERR_NODATA` -/
def fcbErrNodata : UInt8 := 1
/-- `FCB_ERR_SEGMENT_WRAP` -/
def fcbErrSegmentWrap : UInt8 := 2
/-- `FCB_ERR_EOF` -/
def fcbErrEof : UInt8 := 3
/-- `FCB_ERROR` -/
def fcbError : UInt8 := 0xff

/-- `fcb` -/
structure Fcb where
  /-- Drive number, 0 for the default and 1 for A. -/
  drive : ℕ
  /-- `fcb_fname` and `fcb_fext`, which follow each other. -/
  name : Vector UInt8 11
  /-- Current block number. -/
  cublock : ℕ
  /-- Logical record size in bytes. -/
  recsiz : ℕ
  fsize : ℕ
  date : ℕ
  time : ℕ
  sftno : UInt8
  strtclst : ℕ
  dirclst : ℕ
  /-- Current record in the block. -/
  curec : ℕ
  /-- Current relative record number. -/
  rndm : ℕ

/-- The numbers are as wide as the fields. -/
structure Fcb.Words (f : Fcb) : Prop where
  cublock : f.cublock < 2 ^ 16
  recsiz : f.recsiz < 2 ^ 16
  curec : f.curec < 2 ^ 8
  rndm : f.rndm < 2 ^ 32

end Fcbs
end BurdahDos
