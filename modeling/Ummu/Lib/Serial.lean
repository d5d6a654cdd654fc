import Ummu.Lib.Run

/-!
# Serial histories

Operations of several threads executed one after another, and the rule that a run whose steps take
effect at single points has such a history.
-/

namespace Ummu.Lib

variable {α σ τ ω ρ : Type*}

/-- The histories of operations that are executed one after another from `c₀`, each where `ok`
allows it, with the state that they lead to. -/
inductive Serial (exec : ω → σ → ρ × σ) (ok : ω → σ → Prop) (c₀ : σ) :
    List (τ × ω × ρ) → σ → Prop where
  | nil : Serial exec ok c₀ [] c₀
  | snoc {hist : List (τ × ω × ρ)} {c : σ} (h : Serial exec ok c₀ hist c) (t : τ) {op : ω}
      (hok : ok op c) : Serial exec ok c₀ (hist ++ [(t, op, (exec op c).1)]) (exec op c).2

/-- What a thread sees of a history. -/
def seenBy [DecidableEq τ] (hist : List (τ × ω × ρ)) (t : τ) : List (ω × ρ) :=
  (hist.filter (fun e => e.1 = t)).map Prod.snd

lemma seenBy_snoc [DecidableEq τ] (hist : List (τ × ω × ρ)) (t u : τ) (e : ω × ρ) :
    seenBy (hist ++ [(t, e)]) u = if t = u then seenBy hist u ++ [e] else seenBy hist u := by
  rw [seenBy, List.filter_append, List.map_append]
  by_cases htu : t = u
  · rw [if_pos htu, List.filter_singleton, decide_eq_true htu]
    rfl
  · rw [if_neg htu, List.filter_singleton, decide_eq_false htu]
    exact List.append_nil _

/-- A step either leaves what every thread has seen, or executes one operation of one thread. -/
inductive Commits (exec : ω → σ → ρ × σ) (ok : ω → σ → Prop) (R : α → σ → Prop)
    (seen : α → τ → List (ω × ρ)) (a a' : α) (c : σ) : Prop where
  | silent (hR : R a' c) (hseen : ∀ t, seen a' t = seen a t)
  | commit (t : τ) (op : ω) (hok : ok op c) (hR : R a' (exec op c).2)
      (hself : seen a' t = seen a t ++ [(op, (exec op c).1)])
      (hothers : ∀ u, u ≠ t → seen a' u = seen a u)

/-- A run whose steps take effect at single points has a serial history in which every thread sees
what it saw in the run. -/
theorem Reachable.serial [DecidableEq τ] {init : α → Prop} {next : α → α → Prop}
    {exec : ω → σ → ρ × σ} {ok : ω → σ → Prop} {c₀ : σ} {R : α → σ → Prop}
    {seen : α → τ → List (ω × ρ)} {a : α} (h : Reachable init next a)
    (hinit : ∀ a, init a → R a c₀ ∧ ∀ t, seen a t = [])
    (hstep : ∀ a a' c, R a c → next a a' → Commits exec ok R seen a a' c) :
    ∃ hist c, Serial exec ok c₀ hist c ∧ R a c ∧ ∀ t, seenBy hist t = seen a t := by
  induction h with
  | start ha =>
    obtain ⟨hR, hseen⟩ := hinit _ ha
    exact ⟨[], c₀, .nil, hR, fun t => (hseen t).symm⟩
  | step _ hs ih =>
    obtain ⟨hist, c, hserial, hR, hseen⟩ := ih
    cases hstep _ _ c hR hs with
    | silent hR' hsame => exact ⟨hist, c, hserial, hR', fun t => (hseen t).trans (hsame t).symm⟩
    | commit t op hok hR' hself hothers =>
      refine ⟨_, _, hserial.snoc t hok, hR', fun u => ?_⟩
      rw [seenBy_snoc]
      by_cases htu : t = u
      · rw [if_pos htu, hseen, ← htu, hself]
      · rw [if_neg htu, hseen, hothers u (Ne.symm htu)]

end Ummu.Lib
