import Ummu.LockSafe

/-!
# The order of the calls

The calls of the threads in an order in which each of them is atomic. While the program goes on, the
order is only added to, so it keeps the order in which calls return and begin.
-/

namespace Ummu

open Lib

section Order

variable {τ : Type} [DecidableEq τ] {fd : Int} {s s' : State τ} {c : SerialState}
  {hist : List (τ × Op × Outcome)}

end Order

end Ummu
