import Mathlib

/-!
# Runs of a transition system

The states that a run reaches, with the invariant rule and its variant for runs whose steps are
restricted.
-/

namespace Ummu.Lib

variable {σ : Type*} {init : σ → Prop} {next next' : σ → σ → Prop}

/-- The states that runs of `next` reach from `init`. -/
inductive Reachable (init : σ → Prop) (next : σ → σ → Prop) : σ → Prop where
  | start {s : σ} (h : init s) : Reachable init next s
  | step {s s' : σ} (h : Reachable init next s) (hs : next s s') : Reachable init next s'

namespace Reachable

/-- What holds at the start and is kept by every step holds in every state of a run. -/
theorem invariant {I : σ → Prop} {s : σ} (h : Reachable init next s) (hinit : ∀ s, init s → I s)
    (hstep : ∀ s s', I s → next s s' → I s') : I s := by
  induction h with
  | start h => exact hinit _ h
  | step _ hs ih => exact hstep _ _ ih hs

lemma mono {s : σ} (h : Reachable init next s) (hnext : ∀ s s', next s s' → next' s s') :
    Reachable init next' s := by
  induction h with
  | start h => exact .start h
  | step _ hs ih => exact .step ih (hnext _ _ hs)

/-- A run goes on where another one has led. -/
lemma trans {s s' : σ} (h : Reachable init next s) (h' : Reachable (fun t => t = s) next s') :
    Reachable init next s' := by
  induction h' with
  | start hs => exact hs ▸ h
  | step _ hs ih => exact .step ih hs

end Reachable

end Ummu.Lib
