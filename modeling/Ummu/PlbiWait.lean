import Ummu.PlbiRun
import Ummu.CplPoll

/-!
# Every call returns

What an ungrant has sent when it returns, and that it returns: a call of `ummu_send_cmd` gives up after so many checks for space and so many polls, and a poll ends
with the entries that were pending when it began. The bound counts accesses of the call, whatever the
device does between them, as long as it keeps `ucplq_pi` in the turn of the completion ring.
-/

namespace Ummu

open Lib QueueState

/-- An index of a ring of `2 ^ c` entries, with nothing but `a` above the wrap bit. -/
def InTurn (c a x : Nat) : Prop := x < 2 ^ 16 ∧ aboveWrap c x = a

/-- The accesses of a poll, at most. -/
def pollCost (c : Nat) : Nat := 2 ^ (c + 1) + 3

/-- The accesses of the wait for a completion, at most. -/
def waitCost (c : Nat) : Nat := waitCplqTimes * pollCost c

/-- The accesses of a call that has found space for `n` pairs, at most. -/
def publishCost (c n : Nat) : Nat := 2 * n + 1 + waitCost c

/-- The accesses of a call of `ummu_send_cmd`, at most. -/
def sendCost (c : Nat) (call : SendCall) : Nat :=
  2 * (maxWaitNotFullTimes + 1) + 1 + publishCost c call.plbiNum

/-- The registers of the completion ring, and the locals that a poll has read from them, are in the
turn `a`. -/
structure TurnInv (c a : Nat) (st : QueueState) : Prop where
  pi : InTurn c a st.mem.ucplqPi
  ci : InTurn c a st.mem.ucplqCi
  locals : match st.pc with
    | .pollCi _ _ cplPi => InTurn c a cplPi
    | .pollEntry _ _ cplPi cplCi => InTurn c a cplPi ∧ InTurn c a cplCi
    | .pollStore _ _ cplCi _ => InTurn c a cplCi
    | _ => True

/-- The call has at most `n` accesses left. -/
def StepsLeft (c : Nat) (st : QueueState) (n : Nat) : Prop :=
  match st.pc with
  | .idle => True
  | .spacePi times => 2 * (times + 1) + 1 + publishCost c st.call.plbiNum ≤ n
  | .spaceCi times _ => 2 * times + 2 + publishCost c st.call.plbiNum ≤ n
  | .readPi => 1 + publishCost c st.call.plbiNum ≤ n
  | .copyPlbi left _ => 0 < left ∧ publishCost c left ≤ n
  | .copyPsync left _ => 0 < left ∧ publishCost c left ≤ n + 1
  | .publish _ _ => 1 + waitCost c ≤ n
  | .pollPi times _ => 0 < times ∧ times * pollCost c ≤ n
  | .pollCi times _ _ => 0 < times ∧ times * pollCost c ≤ n + 1
  | .pollEntry times _ cplPi cplCi => 0 < times ∧ ∃ k, 0 < k ∧ advance c cplCi k = cplPi ∧
      (times - 1) * pollCost c + k + 1 ≤ n
  | .pollStore times _ _ _ => 0 < times ∧ (times - 1) * pollCost c + 1 ≤ n

section Queue

variable {s c a n : Nat} {st st' : QueueState}

lemma stepsLeft_begin (call : SendCall) : StepsLeft c (st.begin call) (sendCost c call) :=
  le_refl (sendCost c call)

lemma StepsLeft.mono {m : Nat} (h : StepsLeft c st n) (hn : n ≤ m) : StepsLeft c st m := by
  unfold StepsLeft at h ⊢
  cases hst : st.pc <;> rw [hst] at h <;> simp only at h ⊢
  case pollEntry =>
    obtain ⟨ht, k, hk, hadv, hle⟩ := h
    exact ⟨ht, k, hk, hadv, by omega⟩
  all_goals omega

/-- The device does not take accesses from a call, nor add any. -/
lemma StepsLeft.congr (h : StepsLeft c st n) (hpc : st'.pc = st.pc) (hcall : st'.call = st.call) :
    StepsLeft c st' n := by
  unfold StepsLeft at h ⊢
  rw [hpc, hcall]
  exact h

lemma inTurn_advance (hc : c ≤ 15) {x : Nat} (h : InTurn c a x) (k : Nat) :
    InTurn c a (advance c x k) :=
  ⟨(advance_spec hc h.1 k).2, (aboveWrap_advance hc h.1 k).trans h.2⟩

lemma advance_one (x : Nat) : advance c x 1 = ummuUpdateQueueIndex c x := advance_succ 0

lemma three_lt_pollCost (c : Nat) : 3 < pollCost c :=
  Nat.lt_add_of_pos_left (Nat.two_pow_pos (c + 1))

lemma succ_mul_pollCost {times : Nat} (h : 0 < times) :
    times * pollCost c = (times - 1) * pollCost c + pollCost c := by
  obtain ⟨t, rfl⟩ := Nat.exists_eq_succ_of_ne_zero (Nat.pos_iff_ne_zero.mp h)
  exact Nat.succ_mul t _

/-- After a poll that met no completion the call polls again, or it returns. -/
lemma stepsLeft_afterPoll {times piSync : Nat} {ret : Int}
    (h : (times - 1) * pollCost c ≤ n) : StepsLeft c (st.afterPoll times piSync ret) n := by
  unfold QueueState.afterPoll
  by_cases hret : ret = 0
  · rw [if_pos hret]
    trivial
  · rw [if_neg hret]
    by_cases hlast : times - 1 = 0
    · rw [if_pos hlast]
      trivial
    · rw [if_neg hlast]
      exact ⟨Nat.pos_of_ne_zero hlast, h⟩

/-- One access of a call is one access less to make. -/
theorem stepsLeft_sendStep (hc : c ≤ 15) (hturn : TurnInv c a st) (h : StepsLeft c st n)
    (hpc : st.pc ≠ .idle) : 0 < n ∧ StepsLeft c (st.sendStep s c) (n - 1) := by
  have hlocals := hturn.locals
  unfold StepsLeft at h
  unfold sendStep
  cases hst : st.pc with
  | idle => exact (hpc hst).elim
  | spacePi times =>
    rw [hst] at h
    simp only [StepsLeft] at h ⊢
    omega
  | spaceCi times pi =>
    rw [hst] at h
    simp only at h ⊢
    refine ⟨by omega, ?_⟩
    by_cases hspace : queueHasSpace pi st.mem.ucmdqCi s (cmdNumPerPlbi * st.call.plbiNum) = true
    · rw [if_pos hspace]
      simp only [StepsLeft]
      omega
    · rw [if_neg hspace]
      by_cases htimes : times = 0
      · rw [if_pos htimes]
        trivial
      · rw [if_neg htimes]
        simp only [StepsLeft]
        omega
  | readPi =>
    rw [hst] at h
    simp only [StepsLeft] at h ⊢
    exact ⟨by omega, plbiNum_pos st.call, by omega⟩
  | copyPlbi left piWr =>
    rw [hst] at h
    simp only [StepsLeft] at h ⊢
    have hpos : 0 < publishCost c left := by unfold publishCost; omega
    omega
  | copyPsync left piWr =>
    rw [hst] at h
    obtain ⟨hleft, hn⟩ := h
    unfold publishCost at hn
    refine ⟨by omega, ?_⟩
    simp only
    by_cases hlast : left - 1 = 0
    · rw [if_pos hlast]
      simp only [StepsLeft]
      omega
    · rw [if_neg hlast]
      simp only [StepsLeft, publishCost]
      omega
  | publish piWr piSync =>
    rw [hst] at h
    simp only at h
    have hwait : waitCost c ≤ n - 1 := by omega
    exact ⟨by omega, by decide, hwait⟩
  | pollPi times piSync =>
    rw [hst] at h
    simp only [StepsLeft] at h ⊢
    have hcost := @succ_mul_pollCost c times h.1
    have hpos := three_lt_pollCost c
    omega
  | pollCi times piSync cplPi =>
    rw [hst] at h hlocals
    simp only at h hlocals ⊢
    obtain ⟨ht, hn⟩ := h
    have hcost := @succ_mul_pollCost c times ht
    have hpos := three_lt_pollCost c
    by_cases hempty : cplPi = st.mem.ucplqCi
    · rw [if_pos hempty]
      exact ⟨by omega, stepsLeft_afterPoll (by omega)⟩
    · rw [if_neg hempty]
      obtain ⟨k, hk, hadv⟩ := exists_advance hc hturn.ci.1 (hlocals.2.trans hturn.ci.2.symm)
      have hkpos : k ≠ 0 := by
        rintro rfl
        exact hempty hadv.symm
      have hpoll : k + 3 < pollCost c := Nat.add_lt_add_right hk 3
      exact ⟨by omega, ht, k, by omega, hadv, by omega⟩
  | pollEntry times piSync cplPi cplCi =>
    rw [hst] at h hlocals
    simp only at h hlocals ⊢
    obtain ⟨ht, k, hk, hadv, hn⟩ := h
    refine ⟨by omega, ?_⟩
    have hnext : (cplRound c piSync st.mem.cplEntry cplCi).2 = advance c cplCi 1 :=
      (advance_one _).symm
    rw [hnext]
    by_cases hmatch : (cplRound c piSync st.mem.cplEntry cplCi).1 = true
    · rw [if_pos hmatch]
      simp only [StepsLeft]
      omega
    · rw [if_neg hmatch]
      by_cases hend : cplPi = advance c cplCi 1
      · rw [if_pos hend]
        simp only [StepsLeft]
        omega
      · rw [if_neg hend]
        have hk1 : k ≠ 1 := by
          rintro rfl
          exact hend hadv.symm
        refine ⟨ht, k - 1, by omega, ?_, by omega⟩
        rw [advance_add, Nat.add_sub_cancel' (by omega)]
        exact hadv
  | pollStore times piSync cplCi ret =>
    rw [hst] at h
    simp only at h ⊢
    exact ⟨by omega, stepsLeft_afterPoll (by omega)⟩

lemma turnInv_begin (h : TurnInv c a st) (call : SendCall) : TurnInv c a (st.begin call) :=
  ⟨h.pi, h.ci, trivial⟩

lemma turnInv_afterPoll (hpi : InTurn c a st.mem.ucplqPi) (hci : InTurn c a st.mem.ucplqCi)
    (times piSync : Nat) (ret : Int) : TurnInv c a (st.afterPoll times piSync ret) := by
  unfold QueueState.afterPoll
  split_ifs
  · exact ⟨hpi, hci, trivial⟩
  · exact ⟨hpi, hci, trivial⟩
  · exact ⟨hpi, hci, trivial⟩

/-- A call stays in the turn of the ring. -/
lemma turnInv_sendStep (hc : c ≤ 15) (h : TurnInv c a st) : TurnInv c a (st.sendStep s c) := by
  have hlocals := h.locals
  unfold sendStep
  cases hst : st.pc with
  | idle => exact h
  | spacePi times => exact ⟨h.pi, h.ci, trivial⟩
  | spaceCi times pi =>
    simp only
    split_ifs
    · exact ⟨h.pi, h.ci, trivial⟩
    · exact ⟨h.pi, h.ci, trivial⟩
    · exact ⟨h.pi, h.ci, trivial⟩
  | readPi => exact ⟨h.pi, h.ci, trivial⟩
  | copyPlbi left piWr => exact ⟨h.pi, h.ci, trivial⟩
  | copyPsync left piWr =>
    refine ⟨h.pi, h.ci, ?_⟩
    simp only
    by_cases hlast : left - 1 = 0
    · rw [if_pos hlast]
      trivial
    · rw [if_neg hlast]
      trivial
  | publish piWr piSync => exact ⟨h.pi, h.ci, trivial⟩
  | pollPi times piSync => exact ⟨h.pi, h.ci, h.pi⟩
  | pollCi times piSync cplPi =>
    rw [hst] at hlocals
    simp only
    by_cases hempty : cplPi = st.mem.ucplqCi
    · rw [if_pos hempty]
      exact turnInv_afterPoll h.pi h.ci ..
    · rw [if_neg hempty]
      exact ⟨h.pi, h.ci, hlocals, h.ci⟩
  | pollEntry times piSync cplPi cplCi =>
    rw [hst] at hlocals
    have hnext : InTurn c a (cplRound c piSync st.mem.cplEntry cplCi).2 := by
      have hadv := inTurn_advance hc hlocals.2 1
      rwa [advance_one] at hadv
    refine ⟨h.pi, h.ci, ?_⟩
    simp only
    by_cases hmatch : (cplRound c piSync st.mem.cplEntry cplCi).1 = true
    · rw [if_pos hmatch]
      exact hnext
    · rw [if_neg hmatch]
      by_cases hend : cplPi = (cplRound c piSync st.mem.cplEntry cplCi).2
      · rw [if_pos hend]
        exact hnext
      · rw [if_neg hend]
        exact ⟨hlocals.1, hnext⟩
  | pollStore times piSync cplCi ret =>
    rw [hst] at hlocals
    simp only at hlocals ⊢
    apply turnInv_afterPoll
    · exact h.pi
    · exact hlocals

end Queue

/-- The actions left to a call of the API with these sends to make, at most. -/
def sendsCost (c : Nat) (todo : List (Nat × SendCall)) : Nat :=
  (todo.map (fun x => sendCost c x.2 + 2)).sum + 1

/-- The actions of a call of the API after its tables are changed, at most: the call goes through
the queues once. -/
def callCost (ctx : QueueCtx) (info : MaptInfo) : Nat :=
  ctx.ummuCnt.toNat * (sendCost ctx.cplQueSize ⟨⟨0, false, 0, 0⟩, info.doublePlbi⟩ + 2) + 1

/-- The call has at most `n` actions left. -/
def ActionsLeft (ctx : QueueCtx) (st : TidRun) (n : Nat) : Prop :=
  match st.sending with
  | none => True
  | some p =>
    match p.todo with
    | [] => 1 ≤ n
    | (i, send) :: rest =>
      if p.active = false then sendCost ctx.cplQueSize send + 2 + sendsCost ctx.cplQueSize rest ≤ n
      else ∃ k, StepsLeft ctx.cplQueSize (st.queues i) k ∧ k + 1 + sendsCost ctx.cplQueSize rest ≤ n

/-- The device keeps `ucplq_pi` of every queue in its turn of the ring. -/
def TidRun.InTurn (ctx : QueueCtx) (a : Nat → Nat) (st : TidRun) : Prop :=
  ∀ i, Ummu.InTurn ctx.cplQueSize (a i) (st.queues i).mem.ucplqPi

structure TidRun.TurnStart (ctx : QueueCtx) (a : Nat → Nat) (st : TidRun) : Prop where
  start : TidRun.Start st
  pi : st.InTurn ctx a
  ci : ∀ i, Ummu.InTurn ctx.cplQueSize (a i) (st.queues i).mem.ucplqCi

section Call

variable {ctx : QueueCtx} {a : Nat → Nat} {st st' : TidRun} {n : Nat} {q : QueueState}

/-- The queue that a call accesses is the only one that its action changes. -/
lemma step_queues (st : TidRun) (i : Nat) : (st.step ctx).queues i = st.queues i ∨
    (∃ send, (st.step ctx).queues i = (st.queues i).begin send) ∨
    (st.step ctx).queues i = (st.queues i).sendStep ctx.cmdQuePiSize ctx.cplQueSize := by
  cases hp : st.sending with
  | none =>
    left
    simp only [TidRun.step, hp]
  | some p =>
    cases htodo : p.todo with
    | nil =>
      left
      simp only [TidRun.step, hp, htodo]
    | cons next rest =>
      obtain ⟨j, send⟩ := next
      simp only [TidRun.step, hp, htodo]
      by_cases hj : i = j
      · subst hj
        split_ifs
        · exact Or.inr (Or.inl ⟨send, setQueue_self ..⟩)
        · exact Or.inl rfl
        · exact Or.inr (Or.inr (setQueue_self ..))
      · split_ifs
        · exact Or.inl (setQueue_of_ne hj)
        · exact Or.inl rfl
        · exact Or.inl (setQueue_of_ne hj)

lemma turns_step (hc : ctx.cplQueSize ≤ 15)
    (h : ∀ i, TurnInv ctx.cplQueSize (a i) (st.queues i)) (i : Nat) :
    TurnInv ctx.cplQueSize (a i) ((st.step ctx).queues i) := by
  rcases @step_queues ctx st i with hi | ⟨send, hi⟩ | hi
  · rw [hi]
    exact h i
  · rw [hi]
    exact turnInv_begin (h i) send
  · rw [hi]
    exact turnInv_sendStep hc (h i)

/-- An action of a call is one action less to make. -/
lemma actionsLeft_step (hc : ctx.cplQueSize ≤ 15)
    (hturn : ∀ i, TurnInv ctx.cplQueSize (a i) (st.queues i)) (h : ActionsLeft ctx st n)
    (hs : st.sending ≠ none) : 0 < n ∧ ActionsLeft ctx (st.step ctx) (n - 1) := by
  obtain ⟨p, hp⟩ := Option.ne_none_iff_exists'.mp hs
  unfold ActionsLeft at h
  rw [hp] at h
  simp only at h
  cases htodo : p.todo with
  | nil =>
    rw [htodo] at h
    refine ⟨h, ?_⟩
    simp only [TidRun.step, hp, htodo, ActionsLeft]
  | cons next rest =>
    obtain ⟨i, send⟩ := next
    rw [htodo] at h
    simp only at h
    have hrest : 0 < sendsCost ctx.cplQueSize rest := Nat.succ_pos _
    by_cases hactive : p.active = false
    · rw [if_pos hactive] at h
      refine ⟨by omega, ?_⟩
      simp only [TidRun.step, hp, htodo, hactive, if_true, ActionsLeft, Bool.true_eq_false, if_false]
      refine ⟨sendCost ctx.cplQueSize send, ?_, by omega⟩
      exact (stepsLeft_begin send).congr (congrArg QueueState.pc (setQueue_self ..))
        (congrArg QueueState.call (setQueue_self ..))
    · rw [if_neg hactive] at h
      obtain ⟨k, hk, hn⟩ := h
      refine ⟨by omega, ?_⟩
      simp only [TidRun.step, hp, htodo, if_neg hactive]
      by_cases hpc : (st.queues i).pc = .idle
      · rw [if_pos hpc]
        simp only [ActionsLeft]
        cases rest with
        | nil =>
          simp only [sendsCost, List.map_nil, List.sum_nil] at hn ⊢
          omega
        | cons next' rest' =>
          simp only [sendsCost, List.map_cons, List.sum_cons, if_true] at hn ⊢
          omega
      · rw [if_neg hpc]
        obtain ⟨hpos, hleft⟩ := stepsLeft_sendStep hc (hturn i) hk hpc
        simp only [ActionsLeft, if_neg hactive]
        refine ⟨k - 1, ?_, by omega⟩
        exact hleft.congr (congrArg QueueState.pc (setQueue_self ..))
          (congrArg QueueState.call (setQueue_self ..))

/-- A call hands at most one range to `ummu_plbi_va_cmd`. -/
lemma run_plbi_length (info : MaptInfo) (call : ApiCall) : (call.run info).plbi.length ≤ 1 := by
  cases hrefused : call.refused with
  | some ret =>
    rw [refused_run hrefused]
    exact Nat.zero_le 1
  | none =>
    have hplbi := congrArg (fun r => r.2.2) (@ApiCall.run_steps info call hrefused)
    simp only [CallResult.outcome] at hplbi
    rw [hplbi]
    cases hcheck : call.check info with
    | none =>
      rw [ApiCall.steps_none hcheck]
      exact Nat.zero_le 1
    | some d =>
      have hlist : (call.steps info).2.2 =
          (call.imp info d).plbi ++ (call.range d (call.imp info d).lvl).toList := by
        rw [ApiCall.steps, hcheck]
      rw [hlist]
      cases call with
      | grant args env =>
        simp only [ApiCall.imp, ummuGrantImp, ApiCall.range, Option.toList_none, List.append_nil]
        split_ifs <;> simp
      | ungrant data size =>
        have hnone : (ummuUngrantImp info d [] maxLevelIndex).plbi = [] := by
          unfold ummuUngrantImp
          cases info.blockBase <;> rfl
        simp only [ApiCall.imp, hnone, ApiCall.range, Option.toList_some, List.nil_append,
          List.length_singleton, le_refl]
      | ungrantByToken data size tokenVal =>
        have hnone : (ummuUngrantImp info d [] maxLevelIndex).plbi = [] := by
          unfold ummuUngrantImp
          cases info.blockBase <;> rfl
        simp only [ApiCall.imp, hnone, ApiCall.range, Option.toList_some, List.nil_append,
          List.length_singleton, le_refl]

/-- The sends to all queues for one range. -/
lemma sendsCost_queues (range : PlbiRange) (info : MaptInfo) (m : Nat) :
    sendsCost ctx.cplQueSize ((List.range m).map (fun i => (i, ⟨plbiVaCmd range, info.doublePlbi⟩))) =
      m * (sendCost ctx.cplQueSize ⟨⟨0, false, 0, 0⟩, info.doublePlbi⟩ + 2) + 1 := by
  have hcost : ((fun x : Nat × SendCall => sendCost ctx.cplQueSize x.2 + 2) ∘
      fun i => (i, ⟨plbiVaCmd range, info.doublePlbi⟩)) =
      fun _ => sendCost ctx.cplQueSize ⟨⟨0, false, 0, 0⟩, info.doublePlbi⟩ + 2 := by
    funext i
    rfl
  rw [sendsCost, List.map_map, hcost, List.map_const', List.length_range, List.sum_replicate,
    smul_eq_mul]

/-- A call that begins has `callCost` actions to make, at most. -/
lemma actionsLeft_begin (call : ApiCall) :
    ActionsLeft ctx (st.begin ctx call) (callCost ctx st.info) := by
  have hsends : sendsCost ctx.cplQueSize (plbiSends ctx st.info (call.run st.info).plbi) ≤
      callCost ctx st.info := by
    unfold plbiSends
    by_cases hk : st.info.kcmdPlbi = true
    · rw [if_pos hk]
      exact Nat.le_add_left 1 _
    · rw [if_neg hk]
      cases hplbi : (call.run st.info).plbi with
      | nil => exact Nat.le_add_left 1 _
      | cons range rest =>
        obtain rfl : rest = [] := by
          have hlen := run_plbi_length st.info call
          rw [hplbi, List.length_cons] at hlen
          exact List.length_eq_zero_iff.mp (by omega)
        rw [List.flatMap_singleton, sendsCost_queues, callCost]
  simp only [ActionsLeft, TidRun.begin]
  cases htodo : plbiSends ctx st.info (call.run st.info).plbi with
  | nil => exact Nat.le_add_left 1 _
  | cons next rest =>
    rw [htodo] at hsends
    simp only [sendsCost, List.map_cons, List.sum_cons] at hsends
    simp only [if_true, sendsCost]
    omega

/-- Without the device the call that is under way comes to its end. -/
lemma exists_returned (hc : ctx.cplQueSize ≤ 15)
    (hturn : ∀ i, TurnInv ctx.cplQueSize (a i) (st.queues i)) (hleft : ActionsLeft ctx st n)
    (h : TidRun.Reach ctx st) {p : Sending} (hp : st.sending = some p) :
    ∃ st' sends, TidRun.Reach ctx st' ∧
      ⟨p.info, p.call, (p.call.run p.info).ret, sends⟩ ∈ st'.returned := by
  induction n generalizing st p with
  | zero =>
    have hpos := (actionsLeft_step hc hturn hleft (by rw [hp]; simp)).1
    omega
  | succ n ih =>
    have hs : st.sending ≠ none := by
      rw [hp]
      simp
    have hnext : TidRun.Reach ctx (st.step ctx) := .step h (.step hs)
    have hleft' := (actionsLeft_step hc hturn hleft hs).2
    have hturn' := @turns_step ctx a st hc hturn
    cases htodo : p.todo with
    | nil =>
      refine ⟨st.step ctx, p.done, hnext, ?_⟩
      simp only [TidRun.step, hp, htodo]
      exact List.mem_append_right _ (List.mem_singleton_self _)
    | cons next rest =>
      obtain ⟨i, send⟩ := next
      obtain ⟨p', hp', hinfo, hcall⟩ : ∃ p', (st.step ctx).sending = some p' ∧ p'.info = p.info ∧
          p'.call = p.call := by
        simp only [TidRun.step, hp, htodo]
        split_ifs
        · exact ⟨_, rfl, rfl, rfl⟩
        · exact ⟨_, rfl, rfl, rfl⟩
        · exact ⟨_, rfl, rfl, rfl⟩
      rw [← hinfo, ← hcall]
      exact ih hturn' hleft' hnext hp'

end Call

/-- An entry node that holds the page at `0x1000`. -/
def pageNode : EntryNode := ⟨true, false, 3, 0x1000, 0, false, 0x1fff, 0, 0, 0, 0⟩

/-- Two queues, with rings of four commands and four completions. -/
def twoQueues : QueueCtx := ⟨2, 0, 2, 2, []⟩

/-- An entry-mode tid with fresh queues, before a call. -/
def quietRun : TidRun := ⟨⟨1, true, false, false, .entryBlock pageNode⟩, fun _ => freshQueue, none, []⟩

def pageUngrant : ApiCall := .ungrant 0x1000 0x1000

lemma freshQueue_inTurn : InTurn 2 0 0 := ⟨by decide, rfl⟩

lemma quietRun_start : TidRun.TurnStart twoQueues (fun _ => 0) quietRun :=
  ⟨⟨rfl, fun _ => rfl, rfl, rfl⟩, fun _ => freshQueue_inTurn, fun _ => freshQueue_inTurn⟩

/-- An ungrant that returned zero has offered its range to every queue, once: the command was
published with a `PSYNC` behind it and its completion waited for, or there was no room for it in any
of the checks. -/
theorem ungrant_sends {ctx : QueueCtx} {st : TidRun} (h : TidRun.Reach ctx st) {x : CallRecord} (hx : x ∈ st.returned)
    (hcall : x.call.IsUngrant) (hret : x.ret = 0) :
    ∃ range, (x.call.run x.info).plbi = [range] ∧
      x.sends.map SendRecord.send = (List.range ctx.ummuCnt.toNat).map (fun i =>
        (i, ⟨plbiVaCmd range, x.info.doublePlbi⟩)) ∧
      ∀ y ∈ x.sends, SendOutcome ctx.cmdQuePiSize y.call y.pi y.events y.code := by
  obtain ⟨hqueues, hxret, hsends, hok⟩ := (tidRun_inv h).returned x hx
  obtain ⟨range, hrange⟩ := ungrant_plbi hcall (hxret.symm.trans hret)
  refine ⟨range, hrange, ?_, hok⟩
  rw [hsends, hrange, plbiSends, hqueues, List.flatMap_singleton]
  rfl

lemma quietRun_returned : ∃ st sends, TidRun.Reach twoQueues st ∧
    ⟨quietRun.info, pageUngrant, (pageUngrant.run quietRun.info).ret, sends⟩ ∈ st.returned := by
  have hturn : ∀ i, TurnInv twoQueues.cplQueSize ((fun _ => 0) i)
      ((quietRun.begin twoQueues pageUngrant).queues i) :=
    fun i => ⟨quietRun_start.pi i, quietRun_start.ci i, trivial⟩
  exact exists_returned (by decide) hturn (actionsLeft_begin pageUngrant)
    (.step (.start quietRun_start.start) (.call pageUngrant rfl)) rfl

theorem ungrant_sends_page : ∃ st x, TidRun.Reach twoQueues st ∧ x ∈ st.returned ∧ x.ret = 0 ∧
    ∃ range, (x.call.run x.info).plbi = [range] ∧
      x.sends.map SendRecord.send = (List.range 2).map (fun i => (i, ⟨plbiVaCmd range, false⟩)) ∧
      ∀ y ∈ x.sends, SendOutcome 2 y.call y.pi y.events y.code := by
  obtain ⟨st, sends, hreach, hx⟩ := quietRun_returned
  exact ⟨st, _, hreach, hx, rfl, ungrant_sends hreach hx trivial rfl⟩

end Ummu
