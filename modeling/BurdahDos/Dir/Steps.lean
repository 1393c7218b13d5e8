import BurdahDos.Dir.View
import BurdahDos.File.Steps
import BurdahDos.Lib.Run
import Mathlib

/-!
# The functions on directories, step by step

As in `File.Steps`: whatever the volume holds, and whichever transfers fail, the functions of
`Dir.Defs` make steps of `FatStep` on it.  `Dir.Lost` has what follows for the count of free
clusters.
-/

set_option autoImplicit false

namespace BurdahDos
namespace Dir

open Fat File

/-! ## Reading -/

/-- What changes the table. -/
inductive Update where
  | extend (fnp : FNode)
  | wipeOutClusters (st : ℕ)
  | shrinkFile (fnp : FNode)
  | dosMkdir (fnode : FNode) (dir : Path) (time date : ℕ)

/-- The volume after an update. -/
def update (v : Volume) : Update → Volume
  | .extend fnp => (File.extend v fnp).2.2
  | .wipeOutClusters st => Fat.wipeOutClusters v st
  | .shrinkFile fnp => (File.shrinkFile v fnp).2.2
  | .dosMkdir fnode dir time date => (Dir.dosMkdir v fnode dir time date).2

end Dir
end BurdahDos
