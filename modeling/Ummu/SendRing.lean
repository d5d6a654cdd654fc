import Ummu.QueueRun
import Ummu.RingIndex

/-!
# The command ring

What is in the command ring at any point of a run: the commands that were published and not yet
fetched, and behind them those that the current call has copied so far.
-/

namespace Ummu

open Lib QueueState

section Ring

variable {s c idx : Nat} {st st' : QueueState} {call : SendCall}

/-- The commands of a call, by their place in it. -/
lemma commands_length (call : SendCall) : call.commands.length = 2 * call.plbiNum := by
  simp [SendCall.commands, Nat.mul_comm]

lemma commands_take (call : SendCall) {j : Nat} (hj : j < call.plbiNum) :
    call.commands.take (2 * j + 1) = call.commands.take (2 * j) ++ [call.cmdPlbi] ∧
      call.commands.take (2 * j + 2) = call.commands.take (2 * j + 1) ++ [cmdPsync] := by
  have h2 : call.plbiNum ≤ 2 := by
    unfold SendCall.plbiNum
    split <;> omega
  have hcases : call.plbiNum = 1 ∨ call.plbiNum = 2 := by omega
  have hj2 : j = 0 ∨ j = 1 := by omega
  unfold SendCall.commands
  rcases hcases with h | h <;> rcases hj2 with rfl | rfl <;> simp_all

/-- The entries of the ring from the published index on that the call has copied. -/
def Copied (s idx : Nat) (st : QueueState) (k : Nat) : Prop :=
  window (2 ^ s) st.mem.cmdEntry (idx + st.sent.length) k = st.call.commands.take k

/-- There is room for the whole call behind the published commands. -/
def Room (s : Nat) (st : QueueState) : Prop :=
  st.sent.length + 2 * st.call.plbiNum ≤ st.fetched.length + 2 ^ s

/-- What the locals of a call say about the ring. -/
def PcInv (s idx : Nat) (st : QueueState) : Prop :=
  match st.pc with
  | .idle => True
  | .spacePi _ => st.mem.cmdEntry = st.start.cmdEntry ∧ st.mem.ucmdqPi = st.start.ucmdqPi
  | .spaceCi _ pi => pi = st.mem.ucmdqPi ∧ st.mem.cmdEntry = st.start.cmdEntry ∧
      st.mem.ucmdqPi = st.start.ucmdqPi
  | .readPi => Room s st
  | .copyPlbi left piWr => Room s st ∧ ∃ j, j + left = st.call.plbiNum ∧ 0 < left ∧
      piWr = advance s idx (st.sent.length + 2 * j) ∧ Copied s idx st (2 * j)
  | .copyPsync left piWr => Room s st ∧ ∃ j, j + left = st.call.plbiNum ∧ 0 < left ∧
      piWr = advance s idx (st.sent.length + (2 * j + 1)) ∧ Copied s idx st (2 * j + 1)
  | .publish piWr piSync => Room s st ∧
      piWr = advance s idx (st.sent.length + 2 * st.call.plbiNum) ∧
      piSync = advance s idx (st.sent.length + (2 * st.call.plbiNum - 1)) ∧
      Copied s idx st (2 * st.call.plbiNum)
  | .pollPi _ piSync => piSync = advance s idx (st.sent.length - 1)
  | .pollCi _ piSync _ => piSync = advance s idx (st.sent.length - 1)
  | .pollEntry _ piSync _ _ => piSync = advance s idx (st.sent.length - 1)
  | .pollStore _ piSync _ _ => piSync = advance s idx (st.sent.length - 1)

/-- The commands that were sent are those fetched and those in the ring between `ucmdq_ci` and
`ucmdq_pi`. -/
structure RingInv (s idx : Nat) (st : QueueState) : Prop where
  pi : st.mem.ucmdqPi = advance s idx st.sent.length
  ci : st.mem.ucmdqCi = advance s idx st.fetched.length
  le : st.fetched.length ≤ st.sent.length
  fits : st.sent.length ≤ st.fetched.length + 2 ^ s
  contents : st.fetched ++ window (2 ^ s) st.mem.cmdEntry (idx + st.fetched.length)
    (st.sent.length - st.fetched.length) = st.sent
  pc : PcInv s idx st

lemma ringInv_start (h : QueueState.Start idx st) : RingInv s idx st := by
  have hsent : st.sent = [] := by
    simp [sent, published, succeeded, polling, h.results, h.idle]
  refine ⟨?_, ?_, ?_, ?_, ?_, ?_⟩
  · rw [hsent, h.pi]
    rfl
  · rw [h.fetched, h.ci]
    rfl
  · rw [h.fetched]
    exact Nat.zero_le _
  · rw [hsent]
    exact Nat.zero_le _
  · rw [hsent, h.fetched]
    rfl
  · rw [PcInv, h.idle]
    trivial

/-- A step that leaves the registers and the entries of the command ring alone. -/
lemma RingInv.move (h : RingInv s idx st) (hpi : st'.mem.ucmdqPi = st.mem.ucmdqPi)
    (hci : st'.mem.ucmdqCi = st.mem.ucmdqCi) (hentry : st'.mem.cmdEntry = st.mem.cmdEntry)
    (hf : st'.fetched = st.fetched) (hs : st'.sent = st.sent) (hpc : PcInv s idx st') :
    RingInv s idx st' where
  pi := by rw [hpi, hs, h.pi]
  ci := by rw [hci, hf, h.ci]
  le := by rw [hf, hs]; exact h.le
  fits := by rw [hf, hs]; exact h.fits
  contents := by rw [hf, hs, hentry, h.contents]
  pc := hpc

lemma sent_of_polling (hr : st'.results = st.results) (hc : st'.call = st.call)
    (hp : st'.polling = st.polling) : st'.sent = st.sent := by
  simp only [sent, published, succeeded, hr, hc, hp]

lemma sent_of_not_polling (hr : st'.results = st.results) (hp : st.polling = false)
    (hp' : st'.polling = false) : st'.sent = st.sent := by
  simp only [sent, published, succeeded, hr, hp, hp']
  rfl

lemma sent_publish (hr : st'.results = st.results) (hc : st'.call = st.call)
    (hp : st.polling = false) (hp' : st'.polling = true) :
    st'.sent = st.sent ++ st.call.commands := by
  simp only [sent, published, succeeded, hr, hc, hp, hp']
  simp

lemma sent_finish_zero (hp : st.polling = true) : (st.finish 0).sent = st.sent := by
  have hp' : (st.finish 0).polling = false := rfl
  simp only [sent, published, hp, hp']
  simp [succeeded, finish]

lemma sent_finish_timeout (hp : st.polling = false) :
    (st.finish (-etimedout)).sent = st.sent := by
  have hne : (-etimedout : Int) ≠ 0 := by decide
  have hp' : (st.finish (-etimedout)).polling = false := rfl
  simp only [sent, published, hp, hp']
  simp [succeeded, finish, hne]

/-- The call stores the `k`-th of its commands behind the published ones. -/
lemma copy_keep (hs : s ≤ 15) (hidx : idx < 2 ^ 16) (h : RingInv s idx st) (hroom : Room s st)
    {k : Nat} (hk : k < 2 * st.call.plbiNum) (hcopied : Copied s idx st k) (v : CmdEntry)
    (hv : st.call.commands.take (k + 1) = st.call.commands.take k ++ [v]) :
    let entry := Function.update st.mem.cmdEntry
      (qIdx (advance s idx (st.sent.length + k)) s) v
    window (2 ^ s) entry (idx + st.fetched.length) (st.sent.length - st.fetched.length) =
        window (2 ^ s) st.mem.cmdEntry (idx + st.fetched.length)
          (st.sent.length - st.fetched.length) ∧
      window (2 ^ s) entry (idx + st.sent.length) (k + 1) = st.call.commands.take (k + 1) := by
  have hle := h.le
  unfold Room at hroom
  simp only [qIdx_advance hs hidx, ← Nat.add_assoc]
  constructor
  · exact window_update v (by omega) (by omega)
  · rw [window_push, window_update v (by omega) (by omega), Function.update_self, hv, ← hcopied]

/-- An access outside the polls that leaves the ring alone. -/
lemma RingInv.wait (h : RingInv s idx st) {pc : SendPc} (hp : st.polling = false)
    (hp' : ({ st with pc := pc } : QueueState).polling = false)
    (hpc : ({ st with pc := pc } : QueueState).sent = st.sent → PcInv s idx { st with pc := pc }) :
    RingInv s idx { st with pc := pc } :=
  have hsent : ({ st with pc := pc } : QueueState).sent = st.sent :=
    sent_of_not_polling rfl hp hp'
  h.move rfl rfl rfl rfl hsent (hpc hsent)

/-- An access of a poll, to the completion ring. -/
lemma RingInv.poll (h : RingInv s idx st) {pc : SendPc} {consumed : List CplEntry}
    (hp : st.polling = true)
    (hp' : ({ st with consumed := consumed, pc := pc } : QueueState).polling = true)
    (hpc : ({ st with consumed := consumed, pc := pc } : QueueState).sent = st.sent →
      PcInv s idx { st with consumed := consumed, pc := pc }) :
    RingInv s idx { st with consumed := consumed, pc := pc } :=
  have hsent : ({ st with consumed := consumed, pc := pc } : QueueState).sent = st.sent :=
    sent_of_polling rfl rfl (hp'.trans hp.symm)
  h.move rfl rfl rfl rfl hsent (hpc hsent)

/-- An access that stores a command behind the published ones. -/
lemma RingInv.copy (h : RingInv s idx st) {entry : Nat → CmdEntry} {pc : SendPc}
    (hp : st.polling = false)
    (hp' : ({ st with mem := { st.mem with cmdEntry := entry }, pc := pc } : QueueState).polling =
      false)
    (hwindow : window (2 ^ s) entry (idx + st.fetched.length)
      (st.sent.length - st.fetched.length) = window (2 ^ s) st.mem.cmdEntry
        (idx + st.fetched.length) (st.sent.length - st.fetched.length))
    (hpc : ({ st with mem := { st.mem with cmdEntry := entry }, pc := pc } : QueueState).sent =
      st.sent → PcInv s idx { st with mem := { st.mem with cmdEntry := entry }, pc := pc }) :
    RingInv s idx { st with mem := { st.mem with cmdEntry := entry }, pc := pc } := by
  have hsent : ({ st with mem := { st.mem with cmdEntry := entry }, pc := pc } : QueueState).sent =
      st.sent := sent_of_not_polling rfl hp hp'
  refine ⟨?_, h.ci, ?_, ?_, ?_, hpc hsent⟩
  · rw [hsent]
    exact h.pi
  · rw [hsent]
    exact h.le
  · rw [hsent]
    exact h.fits
  · rw [hsent]
    exact hwindow ▸ h.contents

/-- The call publishes what it has copied. -/
lemma RingInv.publish (h : RingInv s idx st) (hp : st.polling = false) (hroom : Room s st)
    (hcopied : Copied s idx st (2 * st.call.plbiNum)) {piSync : Nat}
    (hsync : piSync = advance s idx (st.sent.length + (2 * st.call.plbiNum - 1))) (times : Nat) :
    RingInv s idx { st with
      mem := { st.mem with ucmdqPi := advance s idx (st.sent.length + 2 * st.call.plbiNum) }
      pc := .pollPi times piSync } := by
  have hpos : 0 < st.call.plbiNum := by
    unfold SendCall.plbiNum
    split <;> omega
  have hle := h.le
  have hsent : ({ st with
      mem := { st.mem with ucmdqPi := advance s idx (st.sent.length + 2 * st.call.plbiNum) }
      pc := .pollPi times piSync } : QueueState).sent = st.sent ++ st.call.commands :=
    sent_publish rfl rfl hp rfl
  have hlen : (st.sent ++ st.call.commands).length = st.sent.length + 2 * st.call.plbiNum := by
    rw [List.length_append, commands_length]
  unfold Copied at hcopied
  rw [← commands_length, List.take_length] at hcopied
  refine ⟨?_, h.ci, ?_, ?_, ?_, ?_⟩
  · rw [hsent, hlen]
  · rw [hsent, hlen]
    simp only
    omega
  · rw [hsent, hlen]
    exact hroom
  · rw [hsent, hlen, show st.sent.length + 2 * st.call.plbiNum - st.fetched.length =
      st.sent.length - st.fetched.length + 2 * st.call.plbiNum by omega]
    simp only
    rw [window_add, ← List.append_assoc, h.contents,
      show idx + st.fetched.length + (st.sent.length - st.fetched.length) = idx + st.sent.length by
        omega, ← commands_length, hcopied]
  · unfold PcInv
    rw [hsent, hlen]
    simp only
    rw [hsync]
    congr 1
    omega

/-- The end of a poll. -/
lemma RingInv.afterPoll (h : RingInv s idx st) (hp : st.polling = true) {times piSync : Nat}
    (hsync : piSync = advance s idx (st.sent.length - 1)) (ret : Int) :
    RingInv s idx (st.afterPoll times piSync ret) := by
  have hfinish : RingInv s idx (st.finish 0) :=
    h.move rfl rfl rfl rfl (sent_finish_zero hp) trivial
  unfold QueueState.afterPoll
  by_cases h0 : ret = 0
  · rw [if_pos h0]
    exact hfinish
  rw [if_neg h0]
  by_cases ht : times - 1 = 0
  · rw [if_pos ht]
    exact hfinish
  · rw [if_neg ht]
    exact h.poll hp rfl (fun hsent => by rw [PcInv, hsent]; exact hsync)

/-- An access of the call keeps the ring in order. -/
lemma ringInv_sendStep (hs : s ≤ 15) (hidx : idx < 2 ^ 16) (h : RingInv s idx st) :
    RingInv s idx (st.sendStep s c) := by
  have hpc := h.pc
  have hle := h.le
  have hfits := h.fits
  have hpos : 0 < st.call.plbiNum := by
    unfold SendCall.plbiNum
    split <;> omega
  unfold PcInv at hpc
  unfold sendStep
  cases hst : st.pc with
  | idle => exact h
  | spacePi times =>
    rw [hst] at hpc
    exact h.wait (by rw [polling, hst]) rfl (fun _ => ⟨rfl, hpc⟩)
  | spaceCi times pi =>
    rw [hst] at hpc
    have hp : st.polling = false := by rw [polling, hst]
    simp only
    by_cases hspace : queueHasSpace pi st.mem.ucmdqCi s (cmdNumPerPlbi * st.call.plbiNum) = true
    · rw [if_pos hspace]
      refine h.wait hp rfl (fun hsent => ?_)
      rw [hpc.1, h.pi, h.ci, show st.sent.length = st.fetched.length +
        (st.sent.length - st.fetched.length) by omega, ← advance_add,
        queueHasSpace_iff hs (advance_spec hs hidx _).2 (by omega)] at hspace
      unfold PcInv Room
      rw [hsent]
      simp only [cmdNumPerPlbi] at hspace ⊢
      omega
    · rw [if_neg hspace]
      by_cases ht : times = 0
      · rw [if_pos ht]
        exact h.move rfl rfl rfl rfl (sent_finish_timeout hp) trivial
      · rw [if_neg ht]
        exact h.wait hp rfl (fun _ => hpc.2)
  | readPi =>
    rw [hst] at hpc
    refine h.wait (by rw [polling, hst]) rfl (fun hsent => ?_)
    unfold PcInv Room Copied
    rw [hsent]
    exact ⟨hpc, 0, Nat.zero_add _, hpos, h.pi, rfl⟩
  | copyPlbi left piWr =>
    rw [hst] at hpc
    obtain ⟨hroom, j, hj, hleft, rfl, hcopied⟩ := hpc
    obtain ⟨h1, h2⟩ := copy_keep hs hidx h hroom (by omega) hcopied _
      (commands_take st.call (show j < _ by omega)).1
    refine h.copy (by rw [polling, hst]) rfl h1 (fun hsent => ?_)
    unfold PcInv Room Copied
    rw [hsent]
    exact ⟨hroom, j, hj, hleft, (advance_succ _).symm, h2⟩
  | copyPsync left piWr =>
    rw [hst] at hpc
    obtain ⟨hroom, j, hj, hleft, rfl, hcopied⟩ := hpc
    obtain ⟨h1, h2⟩ := copy_keep hs hidx h hroom (by omega) hcopied _
      (commands_take st.call (show j < _ by omega)).2
    simp only
    by_cases hlast : left - 1 = 0
    · rw [if_pos hlast]
      refine h.copy (by rw [polling, hst]) rfl h1 (fun hsent => ?_)
      obtain rfl : j = st.call.plbiNum - 1 := by omega
      have hnum : 2 * (st.call.plbiNum - 1) + 2 = 2 * st.call.plbiNum := by omega
      unfold PcInv Room Copied
      rw [hsent]
      refine ⟨hroom, ?_, ?_, hnum ▸ h2⟩
      · rw [← advance_succ, ← hnum]
        rfl
      · rw [show 2 * st.call.plbiNum - 1 = 2 * (st.call.plbiNum - 1) + 1 by omega]
    · rw [if_neg hlast]
      refine h.copy (by rw [polling, hst]) rfl h1 (fun hsent => ?_)
      unfold PcInv Room Copied
      rw [hsent]
      exact ⟨hroom, j + 1, show j + 1 + (left - 1) = st.call.plbiNum by omega, by omega,
        (advance_succ _).symm, h2⟩
  | publish piWr piSync =>
    rw [hst] at hpc
    obtain ⟨hroom, rfl, hsync, hcopied⟩ := hpc
    exact h.publish (by rw [polling, hst]) hroom hcopied hsync _
  | pollPi times piSync =>
    rw [hst] at hpc
    exact h.poll (by rw [polling, hst]) rfl (fun hsent => by rw [PcInv, hsent]; exact hpc)
  | pollCi times piSync cplPi =>
    rw [hst] at hpc
    have hp : st.polling = true := by rw [polling, hst]
    simp only
    by_cases hempty : cplPi = st.mem.ucplqCi
    · rw [if_pos hempty]
      exact h.afterPoll hp hpc _
    · rw [if_neg hempty]
      exact h.poll hp rfl (fun hsent => by rw [PcInv, hsent]; exact hpc)
  | pollEntry times piSync cplPi cplCi =>
    rw [hst] at hpc
    have hp : st.polling = true := by rw [polling, hst]
    simp only
    split_ifs
    · exact h.poll hp rfl (fun hsent => by rw [PcInv, hsent]; exact hpc)
    · exact h.poll hp rfl (fun hsent => by rw [PcInv, hsent]; exact hpc)
    · exact h.poll hp rfl (fun hsent => by rw [PcInv, hsent]; exact hpc)
  | pollStore times piSync cplCi ret =>
    rw [hst] at hpc
    have hp : st.polling = true := by rw [polling, hst]
    have hstore : RingInv s idx { st with mem := { st.mem with ucplqCi := cplCi } } :=
      h.move rfl rfl rfl rfl rfl h.pc
    exact hstore.afterPoll hp hpc _

/-- The device takes the next command. -/
lemma ringInv_fetch (hs : s ≤ 15) (hidx : idx < 2 ^ 16) (h : RingInv s idx st)
    (hne : st.mem.ucmdqCi ≠ st.mem.ucmdqPi) : RingInv s idx (st.fetch s) := by
  have hle := h.le
  have hlt : st.fetched.length < st.sent.length := by
    by_contra hlt
    exact hne (by rw [h.pi, h.ci, show st.fetched.length = st.sent.length by omega])
  have hsent : (st.fetch s).sent = st.sent := rfl
  have hlen : (st.fetch s).fetched.length = st.fetched.length + 1 := by
    simp [QueueState.fetch]
  have hfits := h.fits
  refine ⟨h.pi, ?_, ?_, ?_, ?_, ?_⟩
  · rw [hlen, advance_succ, ← h.ci]
    rfl
  · rw [hsent, hlen]
    exact hlt
  · rw [hsent, hlen]
    omega
  · have hcontents := h.contents
    rw [show st.sent.length - st.fetched.length = st.sent.length - (st.fetched.length + 1) + 1 by
      omega, window_succ] at hcontents
    rw [hsent, hlen]
    refine Eq.trans ?_ hcontents
    rw [QueueState.fetch, h.ci, qIdx_advance hs hidx, List.append_assoc]
    rfl
  · have hpc := h.pc
    have hroom : Room s st → Room s (st.fetch s) := by
      intro hr
      unfold Room at hr ⊢
      rw [hlen, hsent]
      exact le_trans hr (by omega)
    unfold PcInv at hpc ⊢
    rw [show (st.fetch s).pc = st.pc from rfl]
    cases hst : st.pc <;> rw [hst] at hpc
    case readPi => exact hroom hpc
    case copyPlbi => exact ⟨hroom hpc.1, hpc.2⟩
    case copyPsync => exact ⟨hroom hpc.1, hpc.2⟩
    case publish => exact ⟨hroom hpc.1, hpc.2⟩
    all_goals exact hpc

lemma ringInv_begin (h : RingInv s idx st) (hidle : st.pc = .idle) (call : SendCall) :
    RingInv s idx (st.begin call) := by
  have hp : st.polling = false := by rw [polling, hidle]
  exact h.move rfl rfl rfl rfl (sent_of_not_polling rfl hp rfl) ⟨rfl, rfl⟩

lemma ringInv_next (hs : s ≤ 15) (hidx : idx < 2 ^ 16) (h : RingInv s idx st)
    (hnext : QueueState.Next s c st st') : RingInv s idx st' := by
  cases hnext with
  | driver hd =>
    cases hd with
    | call call hidle => exact ringInv_begin h hidle call
    | step _ => exact ringInv_sendStep hs hidx h
  | fetch hne => exact ringInv_fetch hs hidx h hne
  | post ucplqPi cplEntry => exact h.move rfl rfl rfl rfl rfl h.pc

/-- The invariant of the command ring holds in every state of every run. -/
theorem reachable_ringInv (hs : s ≤ 15)
    (h : Reachable (QueueState.Start idx) (QueueState.Next s c) st) :
    RingInv s idx st ∧ idx < 2 ^ 16 :=
  h.invariant (I := fun st => RingInv s idx st ∧ idx < 2 ^ 16)
    (fun _ hst => ⟨ringInv_start hst, hst.lt⟩)
    (fun _ _ hinv hnext => ⟨ringInv_next hs hinv.2 hinv.1 hnext, hinv.2⟩)

/-- A slot that the call stores into is none of the outstanding ones. -/
lemma RingInv.storeSlot (hs : s ≤ 15) (hidx : idx < 2 ^ 16) (h : RingInv s idx st) {x : Nat}
    (hx : st.storeSlot s = some x) {j : Nat} (hj : j < st.sent.length - st.fetched.length) :
    qIdx (advance s st.mem.ucmdqCi j) s ≠ x := by
  have hpc := h.pc
  have hle := h.le
  have key : ∀ k, Room s st → k < 2 * st.call.plbiNum →
      qIdx (advance s idx (st.sent.length + k)) s = x →
        qIdx (advance s st.mem.ucmdqCi j) s ≠ x := by
    intro k hroom hk hslot
    unfold Room at hroom
    rw [← hslot, h.ci, advance_add, qIdx_advance hs hidx, qIdx_advance hs hidx]
    exact slot_ne (by omega) (by omega)
  unfold PcInv at hpc
  unfold QueueState.storeSlot at hx
  cases hst : st.pc <;> rw [hst] at hpc hx
  case copyPlbi left piWr =>
    obtain ⟨hroom, i, hi, hleft, rfl, _⟩ := hpc
    exact key _ hroom (by omega) (Option.some.inj hx)
  case copyPsync left piWr =>
    obtain ⟨hroom, i, hi, hleft, rfl, _⟩ := hpc
    exact key _ hroom (by omega) (Option.some.inj hx)
  all_goals cases hx

lemma afterPoll_results (st : QueueState) (times piSync : Nat) (ret : Int) :
    (st.afterPoll times piSync ret).results = st.results ∨
      (st.afterPoll times piSync ret).results = st.results ++ [(st.call, 0)] := by
  unfold QueueState.afterPoll
  split_ifs
  · exact Or.inr rfl
  · exact Or.inr rfl
  · exact Or.inl rfl

/-- What an access of a call adds to the results. -/
lemma sendStep_results (s c : Nat) (st : QueueState) :
    (st.sendStep s c).results = st.results ∨
    (st.sendStep s c).results = st.results ++ [(st.call, 0)] ∨
    ∃ times pi, st.pc = .spaceCi times pi ∧ st.sendStep s c = st.finish (-etimedout) := by
  unfold sendStep
  cases hst : st.pc with
  | spaceCi times pi =>
    simp only
    split_ifs
    · exact Or.inl rfl
    · exact Or.inr (Or.inr ⟨times, pi, rfl, rfl⟩)
    · exact Or.inl rfl
  | pollCi times piSync cplPi =>
    simp only
    split_ifs
    · exact (afterPoll_results st times piSync (-einval)).imp_right Or.inl
    · exact Or.inl rfl
  | pollStore times piSync cplCi ret =>
    exact (afterPoll_results { st with mem := { st.mem with ucplqCi := cplCi } } times
      piSync ret).imp_right Or.inl
  | _ => exact Or.inl rfl

/-- A call returns `-ETIMEDOUT` from its wait for space only, with the ring as it was. -/
lemma RingInv.timeout (h : RingInv s idx st) (hnext : QueueState.Next s c st st')
    (hret : st'.results = st.results ++ [(st.call, -etimedout)]) :
    st'.mem.cmdEntry = st.start.cmdEntry ∧ st'.mem.ucmdqPi = st.start.ucmdqPi := by
  have hne : (-etimedout : Int) ≠ 0 := by decide
  have hlonger : st'.results ≠ st.results := by
    intro he
    rw [he] at hret
    simp at hret
  cases hnext with
  | driver hd =>
    cases hd with
    | call call hidle => exact (hlonger rfl).elim
    | step _ =>
      rcases sendStep_results s c st with he | he | ⟨times, pi, hst, he⟩
      · exact (hlonger he).elim
      · rw [he] at hret
        simp [etimedout] at hret
      · have hpc := h.pc
        rw [PcInv, hst] at hpc
        rw [he]
        exact hpc.2
  | fetch _ => exact (hlonger rfl).elim
  | post _ _ => exact (hlonger rfl).elim

/-- The command ring neither loses nor duplicates nor overwrites a command. -/
theorem commandRing_exact (hs : s ≤ 15)
    (h : Reachable (QueueState.Start idx) (QueueState.Next s c) st) :
    (∃ k ≤ 2 ^ s, st.mem.ucmdqPi = advance s st.mem.ucmdqCi k ∧
      st.fetched ++ (List.range k).map
          (fun j => st.mem.cmdEntry (qIdx (advance s st.mem.ucmdqCi j) s)) =
        st.published.flatMap SendCall.commands ∧
      ∀ x, st.storeSlot s = some x → ∀ j < k, qIdx (advance s st.mem.ucmdqCi j) s ≠ x) ∧
    ∀ st', QueueState.Next s c st st' → st'.results = st.results ++ [(st.call, -etimedout)] →
      st'.mem.cmdEntry = st.start.cmdEntry ∧ st'.mem.ucmdqPi = st.start.ucmdqPi := by
  obtain ⟨hinv, hidx⟩ := reachable_ringInv hs h
  have hle := hinv.le
  have hfits := hinv.fits
  refine ⟨⟨st.sent.length - st.fetched.length, by omega, ?_, ?_,
    fun x hx j hj => hinv.storeSlot hs hidx hx hj⟩, fun st' hnext hret => hinv.timeout hnext hret⟩
  · rw [hinv.pi, hinv.ci, advance_add]
    congr 1
    omega
  · refine Eq.trans ?_ hinv.contents
    rw [window]
    congr 1
    refine List.map_congr_left fun j _ => ?_
    rw [hinv.ci, advance_add, qIdx_advance hs hidx, Nat.add_assoc]

lemma freshQueue_start : QueueState.Start 0 freshQueue :=
  ⟨by decide, rfl, rfl, rfl, rfl, rfl, rfl⟩

lemma reachable_sendSteps (n : Nat)
    (h : Reachable (QueueState.Start idx) (QueueState.Next s c) st) :
    Reachable (QueueState.Start idx) (QueueState.Next s c) ((sendStep s c)^[n] st) := by
  induction n with
  | zero => exact h
  | succ n ih =>
    rw [Function.iterate_succ_apply']
    by_cases hidle : ((sendStep s c)^[n] st).pc = .idle
    · have hstay : sendStep s c ((sendStep s c)^[n] st) = (sendStep s c)^[n] st := by
        rw [sendStep, hidle]
      rwa [hstay]
    · exact .step ih (.driver (.step hidle))

theorem commandRing_exact_example :
    let st := (sendStep 2 2)^[6] (freshQueue.begin sendUserAll)
    (∃ k ≤ 2 ^ 2, st.mem.ucmdqPi = advance 2 st.mem.ucmdqCi k ∧
      st.fetched ++ (List.range k).map
          (fun j => st.mem.cmdEntry (qIdx (advance 2 st.mem.ucmdqCi j) 2)) =
        st.published.flatMap SendCall.commands ∧
      ∀ x, st.storeSlot 2 = some x → ∀ j < k, qIdx (advance 2 st.mem.ucmdqCi j) 2 ≠ x) ∧
      st.published = [sendUserAll] :=
  ⟨(commandRing_exact (by decide) (reachable_sendSteps 6 (.step (.start freshQueue_start)
    (.driver (.call sendUserAll rfl))))).1, by rfl⟩

end Ring

end Ummu
