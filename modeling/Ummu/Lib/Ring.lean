import Mathlib

/-!
# Rings of slots

Position `a` of an endless sequence lies in slot `a % n` of a ring of `n` slots. A window is the
part of the sequence that the ring holds.
-/

namespace Ummu.Lib

variable {α : Type*} {n a b k : Nat} {mem : Nat → α}

/-- The `k` positions from `a` on, as the ring holds them. -/
def window (n : Nat) (mem : Nat → α) (a k : Nat) : List α :=
  (List.range k).map (fun j => mem ((a + j) % n))

@[simp] lemma window_length : (window n mem a k).length = k := by simp [window]

@[simp] lemma window_zero : window n mem a 0 = [] := rfl

lemma window_add (k m : Nat) : window n mem a (k + m) = window n mem a k ++ window n mem (a + k) m := by
  simp only [window, List.range_add, List.map_append, List.map_map]
  congr 1
  refine List.map_congr_left fun j _ => ?_
  rw [Function.comp_apply, Nat.add_assoc]

lemma window_succ (k : Nat) : window n mem a (k + 1) = mem (a % n) :: window n mem (a + 1) k := by
  rw [Nat.add_comm, window_add]
  rfl

lemma window_push (k : Nat) : window n mem a (k + 1) = window n mem a k ++ [mem ((a + k) % n)] := by
  rw [window_add]
  rfl

lemma window_drop {m : Nat} (h : m ≤ k) :
    (window n mem a k).drop m = window n mem (a + m) (k - m) := by
  conv_lhs => rw [show k = m + (k - m) by omega, window_add]
  rw [List.drop_left' window_length]

/-- Positions less than a ring apart lie in different slots. -/
lemma slot_ne (h1 : a < b) (h2 : b < a + n) : a % n ≠ b % n := by
  intro h
  have hmod : (b - a) % n = 0 := (Nat.modEq_iff_dvd' h1.le).mp h |>.elim fun c hc => by
    rw [hc, Nat.mul_mod_right]
  rw [Nat.mod_eq_of_lt (by omega)] at hmod
  omega

/-- A store past the window leaves it alone. -/
lemma window_update (v : α) (h1 : a + k ≤ b) (h2 : b < a + n) :
    window n (Function.update mem (b % n) v) a k = window n mem a k := by
  refine List.map_congr_left fun j hj => ?_
  have hj := List.mem_range.mp hj
  rw [Function.update_of_ne (slot_ne (by omega) (by omega))]

end Ummu.Lib
