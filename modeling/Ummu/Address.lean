import Ummu.Table
import Ummu.Lib.RadixFill

/-!
# Addresses

The level masks and the split address fields compute the slots of a radix tree with 512 children
a block and 4096 addresses in a slot of the lowest level. Nodes at level `3 - d` are the nodes of
depth `d`; their `base` and `limit` count from the start of their slot.
-/

namespace Ummu

open Lib

/-- The tree that the four levels form. -/
abbrev tableGeometry : Geometry := ⟨512, 4096, by omega, by omega⟩

lemma span_eq (d : Nat) : tableGeometry.span d = 2 ^ (12 + 9 * d) := by
  have h : (512 : Nat) ^ d = 2 ^ (9 * d) := by rw [pow_mul]; norm_num
  simp only [Geometry.span, h, pow_add]
  norm_num

lemma gMaptRangeBits_levelOf {d : Nat} (hd : d ≤ 3) :
    gMaptRangeBits (levelOf (d + 1)) = (20 + 9 * d, 12 + 9 * d) := by
  interval_cases d <;> rfl

/-- The mask of a level takes an address to its offset in a slot. -/
lemma and_span_sub_one (d x : Nat) : x &&& (tableGeometry.span d - 1) = x % tableGeometry.span d := by
  rw [span_eq, Nat.and_two_pow_sub_one_eq_mod]

lemma levelRangeMask_eq {d : Nat} (hd : d ≤ 3) :
    getLevelRangeMask (levelOf (d + 1)) = tableGeometry.span d - 1 := by
  rw [getLevelRangeMask, gMaptRangeBits_levelOf hd, getBitsMask, span_eq]

/-- The index of a level is that of the child slot. -/
lemma getLevelBlockIndex_eq {d : Nat} (hd : d ≤ 3) {x : Nat}
    (hx : x < tableGeometry.span (d + 1)) :
    getLevelBlockIndex x (levelOf (d + 1)) = x / tableGeometry.span d := by
  have hlt : x / tableGeometry.span d < 512 := by
    rw [Nat.div_lt_iff_lt_mul (tableGeometry.span_pos d)]
    rwa [tableGeometry.span_succ] at hx
  rw [getLevelBlockIndex, gMaptRangeBits_levelOf hd, getBitsMask, Nat.shiftRight_eq_div_pow,
    ← span_eq, show 20 + 9 * d - (12 + 9 * d) + 1 = 9 by omega, Nat.and_two_pow_sub_one_eq_mod]
  exact Nat.mod_eq_of_lt hlt

lemma index_add {d : Nat} (hd : d ≤ 3) {x : Nat} (hx : x < tableGeometry.span (d + 1)) (a : Nat) :
    tableGeometry.index d a (a + x) = getLevelBlockIndex x (levelOf (d + 1)) := by
  rw [getLevelBlockIndex_eq hd hx, Geometry.index, Nat.add_sub_cancel_left]

/-- The base of the part of a range in child slot `i`, relative to that slot. -/
lemma clipLo_eq {d a b i : Nat} (hab : a ≤ b) :
    tableGeometry.clipLo d a b i = tableGeometry.child d a i +
      (if i = tableGeometry.index d a b then (b - a) % tableGeometry.span d else 0) := by
  unfold Geometry.clipLo
  by_cases hi : i = tableGeometry.index d a b
  · rw [if_pos hi, if_pos hi, hi, Geometry.child, Geometry.index]
    have := Nat.div_add_mod' (b - a) (tableGeometry.span d)
    omega
  · rw [if_neg hi, if_neg hi]
    rfl

lemma clipHi_eq {d a e i : Nat} (hae : a ≤ e) :
    tableGeometry.clipHi d a e i = tableGeometry.child d a i +
      (if i = tableGeometry.index d a e then (e - a) % tableGeometry.span d
        else tableGeometry.span d - 1) := by
  unfold Geometry.clipHi
  by_cases hi : i = tableGeometry.index d a e
  · rw [if_pos hi, if_pos hi, hi, Geometry.child, Geometry.index]
    have := Nat.div_add_mod' (e - a) (tableGeometry.span d)
    omega
  · rw [if_neg hi, if_neg hi]

lemma addrFull_toNat {w : Nat} (low : BitVec 32) (high : BitVec w) :
    addrFull low high = high.toNat * 2 ^ 32 + low.toNat := by
  rw [addrFull, ← Nat.shiftLeft_add_eq_or_of_lt low.isLt, Nat.shiftLeft_eq]

/-- The two fields of an address of a table node hold its low 39 bits. -/
lemma addrFull_tableAddr (x : Nat) :
    addrFull (tableAddrLow x) (tableAddrHigh x) = x % 2 ^ 39 := by
  have h1 : genmaskUll 31 0 = 2 ^ 32 - 1 := by decide
  have h2 : genmaskUll 38 32 >>> 32 = 2 ^ 7 - 1 := by decide
  rw [addrFull_toNat, tableAddrLow, tableAddrHigh, h1, Nat.shiftRight_and_distrib, h2,
    Nat.and_two_pow_sub_one_eq_mod, Nat.and_two_pow_sub_one_eq_mod, Nat.shiftRight_eq_div_pow,
    BitVec.toNat_ofNat, BitVec.toNat_ofNat]
  omega

/-- The two fields of a level block offset hold its low 30 bits. -/
lemma tableLvlOffset_lvlOffset (x : Nat) :
    tableLvlOffset (lvlOffsetLow x) (lvlOffsetHigh x) = x % 2 ^ 30 := by
  have h1 : genmaskUll 19 0 = 2 ^ 20 - 1 := by decide
  have h2 : genmaskUll 29 20 >>> 20 = 2 ^ 10 - 1 := by decide
  rw [tableLvlOffset, lvlOffsetLow, lvlOffsetHigh, h1, Nat.shiftRight_and_distrib, h2,
    Nat.and_two_pow_sub_one_eq_mod, Nat.and_two_pow_sub_one_eq_mod, Nat.shiftRight_eq_div_pow,
    BitVec.toNat_ofNat, BitVec.toNat_ofNat, ← Nat.shiftLeft_add_eq_or_of_lt (by omega),
    Nat.shiftLeft_eq]
  omega

/-- The prefix that `ummu_swap_node_info` puts before an address of a child slot. -/
lemma or_slot {d x i : Nat} (hd : d ≤ 3) (hx : x < tableGeometry.span d) :
    x ||| (i <<< (gMaptRangeBits (levelOf (d + 1))).2) = i * tableGeometry.span d + x := by
  rw [gMaptRangeBits_levelOf hd, span_eq]
  rw [span_eq] at hx
  rw [Nat.or_comm, ← Nat.shiftLeft_add_eq_or_of_lt hx, Nat.shiftLeft_eq]

lemma span_le {d : Nat} (hd : d ≤ 3) : tableGeometry.span d ≤ 2 ^ 39 := by
  rw [span_eq]
  exact Nat.pow_le_pow_right (by omega) (by omega)

end Ummu
