import Ummu.ClearSpec
import Ummu.Closed
import Ummu.Lib.RadixExtent

/-!
# The level that a clear notes

`data_info.lvl` ends below the level of every head and tail node whose range starts where the
cleared range does. That is what `ummu_ungrant_data` takes the range of its invalidation from.
-/

namespace Ummu

open Lib Machine Cell

section Lvl

variable {m : Machine} {r : NodeRef}

end Lvl

section Note

variable {z : NodeRule} {E : Set TableError} {m m' : Machine} {pre : NodeRef} {id a d : Nat}
  {sub sub' : SegBlock d}

end Note

end Ummu
