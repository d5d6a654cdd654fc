import Mathlib

/-!
# Loops with a return code

`forRange` is the loop `for (i = lo; ...; i++) { ret = body; if (ret != 0) return ret; }` over a
state. Its rule carries an invariant from one index to the next and names what holds where the
loop is left early.
-/

namespace Ummu.Lib

variable {σ : Type*}

/-- Runs `body` at `i, i + 1, ...`, `n` times, and stops at the first code that is not zero. -/
def forRange (body : Nat → σ → Int × σ) : Nat → Nat → σ → Int × σ
  | _, 0, s => (0, s)
  | i, n + 1, s =>
    let r := body i s
    if r.1 ≠ 0 then r else forRange body (i + 1) n r.2

@[simp] lemma forRange_zero (body : Nat → σ → Int × σ) (i : Nat) (s : σ) :
    forRange body i 0 s = (0, s) := rfl

lemma forRange_succ (body : Nat → σ → Int × σ) (i n : Nat) (s : σ) :
    forRange body i (n + 1) s =
      if (body i s).1 ≠ 0 then body i s else forRange body (i + 1) n (body i s).2 := rfl

/-- The invariant rule: `I k` holds before the body runs at `k`, `S k` where it fails. -/
theorem forRange_rule {body : Nat → σ → Int × σ} {I : Nat → σ → Prop}
    {S : Nat → Int → σ → Prop} {i n : Nat} {s : σ} (hs : I i s)
    (hstep : ∀ k s, i ≤ k → k < i + n → I k s →
      ((body k s).1 = 0 ∧ I (k + 1) (body k s).2) ∨
      ((body k s).1 ≠ 0 ∧ S k (body k s).1 (body k s).2)) :
    ((forRange body i n s).1 = 0 ∧ I (i + n) (forRange body i n s).2) ∨
    ((forRange body i n s).1 ≠ 0 ∧ ∃ k, i ≤ k ∧ k < i + n ∧
      S k (forRange body i n s).1 (forRange body i n s).2) := by
  induction n generalizing i s with
  | zero => exact Or.inl ⟨rfl, hs⟩
  | succ n ih =>
    rw [forRange_succ]
    rcases hstep i s (le_refl _) (by omega) hs with ⟨h0, hinv⟩ | ⟨hne, hstop⟩
    · rw [if_neg (not_not.mpr h0)]
      have hrest := ih hinv (fun k s hk hkn hk' => hstep k s (by omega) (by omega) hk')
      rw [show i + (n + 1) = i + 1 + n by omega]
      rcases hrest with h | ⟨h, k, hik, hkn, hk⟩
      · exact Or.inl h
      · exact Or.inr ⟨h, k, by omega, by omega, hk⟩
    · rw [if_pos hne]
      exact Or.inr ⟨hne, i, le_refl _, by omega, hstop⟩

/-- A relation that every round respects is respected by the loop. -/
theorem forRange_preserves {body : Nat → σ → Int × σ} {R : σ → σ → Prop}
    (hrefl : ∀ s, R s s) (htrans : ∀ s t u, R s t → R t u → R s u)
    (hbody : ∀ k s, R s (body k s).2) (i n : Nat) (s : σ) : R s (forRange body i n s).2 := by
  induction n generalizing i s with
  | zero => exact hrefl s
  | succ n ih =>
    rw [forRange_succ]
    by_cases h : (body i s).1 ≠ 0
    · rw [if_pos h]
      exact hbody i s
    · rw [if_neg h]
      exact htrans _ _ _ (hbody i s) (ih _ _)

end Ummu.Lib
