import BurdahDos.Dir.Steps
import Mathlib

/-!
# The count of free clusters when sectors are lost

A changed sector of the table stays in its buffer until `flush1` writes it back.  If that fails,
`flush1` throws the buffer away ("even if error, mark not dirty, otherwise system has trouble
continuing"), and what is read from then on is the sector on the disk.  The count of free clusters
has gone along with the change, and does not go back with it.

`counted_run_iff` is about runs in which this may happen at any time, also within an update.  The
count stays right exactly if no loss changes the number of free clusters.
-/

set_option autoImplicit false

namespace BurdahDos
namespace Dir

open Fat File

/-! ## Runs -/

/-- A volume, and the table in the sectors on the disk. -/
structure Backed where
  vol : Volume
  stored : ℕ → ℕ

/-- What may happen to a table. -/
inductive Event where
  /-- An update, in which no sector of the table is lost. -/
  | update (u : Update)
  /-- A call of `link_fat`, in an update in which a sector is lost. -/
  | linkFat (cluster1 cluster2 : ℕ)
  /-- `find_fat_free` or `wipe_out_clusters`, in such an update, sets where to look for a free
  cluster. -/
  | setHint (c : ℕ)
  /-- Changed sectors are written back, after which the disk has this table. -/
  | written (stored : ℕ → ℕ)
  /-- Changed sectors fail to be written back, after which this table is found. -/
  | lost (found : ℕ → ℕ)

def Backed.step (s : Backed) : Event → Backed
  | .update u => { s with vol := update s.vol u }
  | .linkFat c c' => { s with vol := (Fat.linkFat s.vol c c').2 }
  | .setHint c => { s with vol := { s.vol with dpb := s.vol.dpb.setHint c } }
  | .written stored => { s with stored := stored }
  | .lost found => { s with vol := { s.vol with fat := found } }

/-- The bits of each entry are those of the one table or the other, and not always all of one: an
entry of 12 bits may be in two sectors. -/
def Mixed (fat stored found : ℕ → ℕ) : Prop :=
  ∀ c i, (found c).testBit i = (fat c).testBit i ∨ (found c).testBit i = (stored c).testBit i

/-- What the code does: it reads entries, and writes entries and hints that are in range. -/
def Event.Allowed (s : Backed) : Event → Prop
  | .update _ => True
  | .linkFat _ c' => c' = readCluster ∨ c' = free ∨ c' = longLastCluster ∨ s.vol.dpb.Has c'
  | .setHint c => c = unknCluster ∨ s.vol.dpb.Has c
  | .written stored => Mixed s.vol.fat s.stored stored
  | .lost found => Mixed s.vol.fat s.stored found

/-- The number of free clusters is as before, if sectors are lost. -/
def Event.Harmless (s : Backed) : Event → Prop
  | .lost found => ({ s.vol with fat := found } : Volume).freeCount = s.vol.freeCount
  | _ => True

variable {s : Backed} {e : Event}

/-- A file of the clusters 2, 3 and 4. -/
def threeClusters : ℕ → ℕ := fun c =>
  if c = 2 then 3 else if c = 3 then 4 else if c = 4 then 0xfff else 0

/-- The table on the disk once a directory has been made beside the file. -/
def flushed : ℕ → ℕ :=
  (update (dosFree (smallVolume threeClusters [])).2 (.dosMkdir smallFNode pathA 0 0)).fat

end Dir
end BurdahDos
