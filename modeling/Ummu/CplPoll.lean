import Ummu.RingIndex

/-!
# One poll of the completion queue

`ummu_get_cpl_psync` reads the entries from `ucplq_ci` on until it meets the expected one or
`ucplq_pi`. The indices it goes through never change above the wrap bit.
-/

namespace Ummu

section Poll

variable {s piSync pi ci k n : Nat} {cplEntry : Nat → CplEntry}

/-- The `j`-th entry from `ci` on is the expected one. -/
def Expected (s piSync : Nat) (cplEntry : Nat → CplEntry) (ci j : Nat) : Prop :=
  (cplEntry ((ci + j) % 2 ^ s)).cmdqCi = piSync

instance (s piSync : Nat) (cplEntry : Nat → CplEntry) (ci j : Nat) :
    Decidable (Expected s piSync cplEntry ci j) :=
  inferInstanceAs (Decidable (_ = _))

/-- The `j`-th entry from `ci` on comes before `pi`. -/
def Pending (s pi ci j : Nat) : Prop := ∀ i ≤ j, advance s ci i ≠ pi

/-- `idx_mask` takes the slot of an index. -/
lemma and_idxMask (hs : s ≤ 15) (h : ci < 2 ^ 16) (k : Nat) :
    advance s ci k &&& toUint16 (maxCmdQueIndex s) = (ci + k) % 2 ^ s := by
  have hpow := two_pow_le hs
  have hmask : toUint16 (maxCmdQueIndex s) = 1 <<< s - 1 := by
    rw [maxCmdQueIndex, Nat.one_shiftLeft, toUint16_of_lt (by omega)]
  rw [hmask, ← qIdx_advance hs h]
  rfl

lemma cplRound_eq (hs : s ≤ 15) (h : ci < 2 ^ 16) (k : Nat) :
    cplRound s piSync cplEntry (advance s ci k) =
      (decide ((cplEntry ((ci + k) % 2 ^ s)).cmdqCi = piSync), advance s ci (k + 1)) := by
  rw [cplRound, and_idxMask hs h, ← advance_succ]

lemma getCplLoop_succ (hs : s ≤ 15) (h : ci < 2 ^ 16) (k rounds : Nat) :
    getCplLoop s piSync pi cplEntry (rounds + 1) (advance s ci k) =
      if pi = advance s ci k then some (-eagain, advance s ci k)
      else if Expected s piSync cplEntry ci k then some (0, advance s ci (k + 1))
      else getCplLoop s piSync pi cplEntry rounds (advance s ci (k + 1)) := by
  rw [getCplLoop, cplRound_eq hs h]
  simp only [decide_eq_true_eq]
  rfl

/-- The loop from the `k`-th entry on, when it meets `pi` first. -/
lemma getCplLoop_end (hs : s ≤ 15) (h : ci < 2 ^ 16) (hkn : k ≤ n) (hpi : advance s ci n = pi)
    (hbefore : ∀ i, k ≤ i → i < n → advance s ci i ≠ pi ∧ ¬Expected s piSync cplEntry ci i)
    {rounds : Nat} (hr : n ≤ k + rounds) :
    getCplLoop s piSync pi cplEntry rounds (advance s ci k) = some (-eagain, pi) := by
  induction rounds generalizing k with
  | zero =>
    obtain rfl : k = n := by omega
    rw [getCplLoop, if_pos hpi.symm, hpi]
  | succ rounds ih =>
    by_cases hk : k = n
    · subst hk
      rw [getCplLoop, if_pos hpi.symm, hpi]
    · obtain ⟨h1, h2⟩ := hbefore k (le_refl k) (by omega)
      rw [getCplLoop_succ hs h, if_neg (Ne.symm h1), if_neg h2]
      exact ih (by omega) (fun i hi => hbefore i (by omega)) (by omega)

/-- The loop from the `k`-th entry on, when it meets the expected entry first. -/
lemma getCplLoop_match (hs : s ≤ 15) (h : ci < 2 ^ 16) (hkn : k ≤ n)
    (hexp : Expected s piSync cplEntry ci n) (hpi : advance s ci n ≠ pi)
    (hbefore : ∀ i, k ≤ i → i < n → advance s ci i ≠ pi ∧ ¬Expected s piSync cplEntry ci i)
    {rounds : Nat} (hr : n < k + rounds) :
    getCplLoop s piSync pi cplEntry rounds (advance s ci k) = some (0, advance s ci (n + 1)) := by
  induction rounds generalizing k with
  | zero => omega
  | succ rounds ih =>
    by_cases hk : k = n
    · subst hk
      rw [getCplLoop_succ hs h, if_neg (Ne.symm hpi), if_pos hexp]
    · obtain ⟨h1, h2⟩ := hbefore k (le_refl k) (by omega)
      rw [getCplLoop_succ hs h, if_neg (Ne.symm h1), if_neg h2]
      exact ih (by omega) (fun i hi => hbefore i (by omega)) (by omega)

/-- The loop goes on while it meets neither. -/
lemma getCplLoop_none (hs : s ≤ 15) (h : ci < 2 ^ 16)
    (hnever : ∀ i, advance s ci i ≠ pi ∧ ¬Expected s piSync cplEntry ci i) (rounds : Nat) :
    getCplLoop s piSync pi cplEntry rounds (advance s ci k) = none := by
  induction rounds generalizing k with
  | zero => rw [getCplLoop, if_neg (Ne.symm (hnever k).1)]
  | succ rounds ih =>
    rw [getCplLoop_succ hs h, if_neg (Ne.symm (hnever k).1), if_neg (hnever k).2]
    exact ih

/-- The poll stops after at most `2 ^ (s + 1)` rounds and drains the entries up to the expected one,
or all that are pending. -/
def PollExact (s piSync : Nat) (cplEntry : Nat → CplEntry) (pi ci : Nat) : Prop :=
  ∃ r, ummuGetCplPsync s piSync cplEntry pi ci (2 ^ (s + 1)) = some r ∧
    (pi = ci → r = (-einval, ci)) ∧
    (pi ≠ ci →
      (r.1 = 0 ↔ ∃ j, Pending s pi ci j ∧ Expected s piSync cplEntry ci j) ∧
      (∀ j, Pending s pi ci j → Expected s piSync cplEntry ci j →
        (∀ i < j, ¬Expected s piSync cplEntry ci i) → r.2 = advance s ci (j + 1)) ∧
      ((∀ j, Pending s pi ci j → ¬Expected s piSync cplEntry ci j) → r = (-eagain, pi)))

/-- Indices that agree above the wrap bit are less than two turns apart. -/
lemma exists_advance (hs : s ≤ 15) (h : ci < 2 ^ 16) (habove : aboveWrap s pi = aboveWrap s ci) :
    ∃ k < 2 ^ (s + 1), advance s ci k = pi := by
  have hpos : 0 < 2 ^ (s + 1) := Nat.two_pow_pos _
  have hlow : belowWrap s ci < 2 ^ (s + 1) := Nat.mod_lt _ hpos
  have hlow' : belowWrap s pi < 2 ^ (s + 1) := Nat.mod_lt _ hpos
  have hself : aboveWrap s pi * 2 ^ (s + 1) + belowWrap s pi = pi := Nat.div_add_mod' ..
  refine ⟨(belowWrap s pi + (2 ^ (s + 1) - belowWrap s ci)) % 2 ^ (s + 1), Nat.mod_lt _ hpos, ?_⟩
  rw [(advance_spec hs h _).1, Nat.add_mod_mod, ← habove,
    show belowWrap s ci + (belowWrap s pi + (2 ^ (s + 1) - belowWrap s ci)) =
      belowWrap s pi + 2 ^ (s + 1) by omega, Nat.add_mod_right, Nat.mod_eq_of_lt hlow', hself]

lemma aboveWrap_advance (hs : s ≤ 15) (h : ci < 2 ^ 16) (k : Nat) :
    aboveWrap s (advance s ci k) = aboveWrap s ci := by
  have hpos : 0 < 2 ^ (s + 1) := Nat.two_pow_pos _
  rw [(advance_spec hs h k).1, aboveWrap, Nat.mul_comm, Nat.mul_add_div hpos,
    Nat.div_eq_of_lt (Nat.mod_lt _ hpos), Nat.add_zero]

/-- Every slot is met within one turn. -/
lemma exists_slot (ci : Nat) {x n : Nat} (hx : x < n) : ∃ j < n, (ci + j) % n = x := by
  have hlt := Nat.mod_lt ci (show 0 < n by omega)
  by_cases hle : ci % n ≤ x
  · refine ⟨x - ci % n, by omega, ?_⟩
    rw [← Nat.mod_add_mod, show ci % n + (x - ci % n) = x by omega, Nat.mod_eq_of_lt hx]
  · refine ⟨x + n - ci % n, by omega, ?_⟩
    rw [← Nat.mod_add_mod, show ci % n + (x + n - ci % n) = x + n by omega, Nat.add_mod_right,
      Nat.mod_eq_of_lt hx]

/-- The poll is exact where it meets the expected entry or `pi` within two turns. -/
lemma pollExact_of_meet (hs : s ≤ 15) (h : ci < 2 ^ 16) (hne : pi ≠ ci)
    (hmeet : ∃ j < 2 ^ (s + 1), advance s ci j = pi ∨ Expected s piSync cplEntry ci j) :
    PollExact s piSync cplEntry pi ci := by
  have hfind : ∃ j, advance s ci j = pi ∨ Expected s piSync cplEntry ci j :=
    hmeet.imp fun _ h => h.2
  obtain ⟨n, hn⟩ : ∃ n, n = Nat.find hfind := ⟨_, rfl⟩
  have hlt : n < 2 ^ (s + 1) := by
    obtain ⟨j, hj, hor⟩ := hmeet
    exact hn ▸ lt_of_le_of_lt (Nat.find_min' hfind hor) hj
  have hbefore : ∀ i, i < n → advance s ci i ≠ pi ∧ ¬Expected s piSync cplEntry ci i := by
    intro i hi
    exact not_or.mp (Nat.find_min hfind (hn ▸ hi))
  have hor := Nat.find_spec hfind
  rw [← hn] at hor
  have hloop : ∀ r, getCplLoop s piSync pi cplEntry (2 ^ (s + 1)) (advance s ci 0) = some r →
      ummuGetCplPsync s piSync cplEntry pi ci (2 ^ (s + 1)) = some r := by
    intro r hr
    rw [ummuGetCplPsync, if_neg hne]
    exact hr
  by_cases hpi : advance s ci n = pi
  · have hnone : ∀ j, Pending s pi ci j → ¬Expected s piSync cplEntry ci j := by
      intro j hj
      have hjn : j < n := by
        by_contra hjn
        exact hj n (by omega) hpi
      exact (hbefore j hjn).2
    refine ⟨(-eagain, pi), hloop _ (getCplLoop_end hs h (Nat.zero_le n) hpi
      (fun i _ => hbefore i) (by omega)), fun he => (hne he).elim, fun _ => ⟨⟨fun he => ?_, ?_⟩,
      fun j hj hexp => (hnone j hj hexp).elim, fun _ => rfl⟩⟩
    · exact (show (-eagain : Int) ≠ 0 by decide) he |>.elim
    · rintro ⟨j, hj, hexp⟩
      exact (hnone j hj hexp).elim
  · have hexp := hor.resolve_left hpi
    have hpending : Pending s pi ci n := by
      intro i hi he
      rcases Nat.lt_or_eq_of_le hi with hi | rfl
      · exact (hbefore i hi).1 he
      · exact hpi he
    refine ⟨(0, advance s ci (n + 1)), hloop _ (getCplLoop_match hs h (Nat.zero_le n) hexp hpi
      (fun i _ => hbefore i) (by omega)), fun he => (hne he).elim, fun _ => ⟨⟨fun _ =>
      ⟨n, hpending, hexp⟩, fun _ => rfl⟩, fun j hj hexp' hfirst => ?_, fun hnone =>
      (hnone n hpending hexp).elim⟩⟩
    have hjn : j = n := by
      rcases Nat.lt_trichotomy j n with hlt | heq | hgt
      · exact absurd hexp' (hbefore j hlt).2
      · exact heq
      · exact absurd hexp (hfirst n hgt)
    rw [hjn]

/-- The poll is exact when the two indices agree above the wrap bit, or the expected entry is
somewhere in the ring; otherwise it never stops. -/
theorem pollExact_iff (hs : s ≤ 15) (h : ci < 2 ^ 16) :
    (PollExact s piSync cplEntry pi ci ↔
      aboveWrap s pi = aboveWrap s ci ∨ ∃ x < 2 ^ s, (cplEntry x).cmdqCi = piSync) ∧
    (¬PollExact s piSync cplEntry pi ci →
      ∀ rounds, ummuGetCplPsync s piSync cplEntry pi ci rounds = none) := by
  have hpos : 0 < 2 ^ s := Nat.two_pow_pos s
  have hle : 2 ^ s ≤ 2 ^ (s + 1) := Nat.pow_le_pow_right (by omega) (by omega)
  have hspin : ¬(aboveWrap s pi = aboveWrap s ci ∨ ∃ x < 2 ^ s, (cplEntry x).cmdqCi = piSync) →
      ∀ rounds, ummuGetCplPsync s piSync cplEntry pi ci rounds = none := by
    intro hcond rounds
    rw [not_or] at hcond
    have hne : pi ≠ ci := fun he => hcond.1 (by rw [he])
    rw [ummuGetCplPsync, if_neg hne]
    refine getCplLoop_none (k := 0) hs h (fun i => ⟨fun he => hcond.1 ?_, fun he => hcond.2 ?_⟩) rounds
    · rw [← he, aboveWrap_advance hs h]
    · exact ⟨_, Nat.mod_lt _ hpos, he⟩
  have hexact : (aboveWrap s pi = aboveWrap s ci ∨ ∃ x < 2 ^ s, (cplEntry x).cmdqCi = piSync) →
      PollExact s piSync cplEntry pi ci := by
    intro hcond
    by_cases hne : pi = ci
    · exact ⟨(-einval, ci), by rw [ummuGetCplPsync, if_pos hne], fun _ => rfl,
        fun h => (h hne).elim⟩
    have hmeet : ∃ j < 2 ^ (s + 1), advance s ci j = pi ∨ Expected s piSync cplEntry ci j := by
      rcases hcond with habove | ⟨x, hx, hexp⟩
      · obtain ⟨j, hj, hpi⟩ := exists_advance hs h habove
        exact ⟨j, hj, Or.inl hpi⟩
      · obtain ⟨j, hj, hslot⟩ := exists_slot ci hx
        exact ⟨j, by omega, Or.inr (by rw [Expected, hslot, hexp])⟩
    exact pollExact_of_meet hs h hne hmeet
  refine ⟨⟨fun hp => ?_, hexact⟩, fun hp => hspin (fun hc => hp (hexact hc))⟩
  by_contra hcond
  obtain ⟨r, hr, _⟩ := hp
  rw [hspin hcond] at hr
  cases hr

/-- A `ucplq_pi` with a bit above the wrap bit, and a ring without the expected entry. -/
theorem strayPi_not_pollExact : ¬PollExact 2 1 (fun _ => ⟨1, 0⟩) 16 0 := by
  have h16 : (0 : Nat) < 2 ^ 16 := by decide
  rw [(pollExact_iff (by decide) h16).1]
  rintro (h | ⟨x, _, h⟩)
  · exact absurd h (by decide)
  · exact absurd h (by decide)

theorem pollExact_iff_example :
    (PollExact 2 1 (fun _ => ⟨1, 1⟩) 3 0 ↔
      aboveWrap 2 3 = aboveWrap 2 0 ∨ ∃ x < 2 ^ 2, ((fun _ => ⟨1, 1⟩ : Nat → CplEntry) x).cmdqCi = 1) ∧
    (¬PollExact 2 1 (fun _ => ⟨1, 1⟩) 3 0 →
      ∀ rounds, ummuGetCplPsync 2 1 (fun _ => ⟨1, 1⟩) 3 0 rounds = none) :=
  pollExact_iff (by decide) (by decide)

end Poll

end Ummu
