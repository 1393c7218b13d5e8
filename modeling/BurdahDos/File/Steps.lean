import BurdahDos.File.Call
import Mathlib

/-!
# The functions on files, step by step

Whatever the table looks like, and whichever transfers fail, `extend`, `shrink_file` and all the
others make steps of `FatStep` on the volume.  As everywhere in `Fat` and `File`, a transfer that
fails takes no changed sector of the table with it.
-/

set_option autoImplicit false

namespace BurdahDos
namespace File

open Fat

theorem SameTable.steps {v v' : Volume} (h : SameTable v v') : FatSteps v v' :=
  FatSteps.of_access h.dpb h.fat

end File
end BurdahDos
