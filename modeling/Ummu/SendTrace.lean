import Ummu.QueueRun
import Ummu.RingIndex

/-!
# What a call of `ummu_send_cmd` has done

The accesses of one call in the order in which they were made, and what they come to when the call
returns, however the device behaves meanwhile.
-/

namespace Ummu

open Lib QueueState

/-- An access that a call made: a check for space with the registers it read, a command stored, the
register `ucmdq_pi` written, a completion read, and the end of a poll with its code. -/
inductive SendEvent where
  | space (pi ci : Nat)
  | store (slot : Nat) (cmd : CmdEntry)
  | publish (pi : Nat)
  | read (e : CplEntry)
  | poll (ret : Int)
deriving DecidableEq

/-- What the next access of the call will have been. -/
def QueueState.events (s c : Nat) (st : QueueState) : List SendEvent :=
  match st.pc with
  | .spaceCi _ pi => [.space pi st.mem.ucmdqCi]
  | .copyPlbi _ piWr => [.store (qIdx piWr s) st.call.cmdPlbi]
  | .copyPsync _ piWr => [.store (qIdx piWr s) cmdPsync]
  | .publish piWr _ => [.publish piWr]
  | .pollCi _ _ cplPi => if cplPi = st.mem.ucplqCi then [.poll (-einval)] else []
  | .pollEntry _ _ _ cplCi => [.read (st.mem.cplEntry (cplCi &&& toUint16 (maxCmdQueIndex c)))]
  | .pollStore _ _ _ ret => [.poll ret]
  | _ => []

/-- The commands of `n` pairs, stored from the index `pi` on. -/
def stores (s : Nat) (call : SendCall) (pi n : Nat) : List SendEvent :=
  (List.range n).flatMap (fun j =>
    [.store (qIdx (advance s pi (2 * j)) s) call.cmdPlbi,
      .store (qIdx (advance s pi (2 * j + 1)) s) cmdPsync])

/-- A check that found too little space. -/
def NoSpace (s : Nat) (call : SendCall) (e : SendEvent) : Prop :=
  ∃ pi ci, e = .space pi ci ∧ queueHasSpace pi ci s (cmdNumPerPlbi * call.plbiNum) = false

def SendEvent.isPoll : SendEvent → Bool
  | .poll _ => true
  | _ => false

/-- No completion that was read has the index of the last `PSYNC`. -/
def NoMatch (piSync : Nat) (tail : List SendEvent) : Prop :=
  ∀ e, SendEvent.read e ∈ tail → e.cmdqCi ≠ piSync

def polls (tail : List SendEvent) : Nat := (tail.filter SendEvent.isPoll).length

/-- The wait for the completion: one with the index of the last `PSYNC` was read, of whatever status,
or all polls ended without one. -/
inductive Waited (piSync : Nat) (tail : List SendEvent) : Prop where
  | found (e : CplEntry) (h : SendEvent.read e ∈ tail) (hci : e.cmdqCi = piSync)
  | gaveUp (hno : NoMatch piSync tail) (hpolls : polls tail = waitCplqTimes)

/-- The checks of a call that found space in the end. -/
def SpaceFound (s : Nat) (call : SendCall) (pi : Nat) (checks : List SendEvent) : Prop :=
  ∃ full ci, (∀ e ∈ full, NoSpace s call e) ∧
    queueHasSpace pi ci s (cmdNumPerPlbi * call.plbiNum) = true ∧ checks = full ++ [.space pi ci]

/-- The accesses of a call that has returned; `pi` is `ucmdq_pi` as the call found it. -/
inductive SendOutcome (s : Nat) (call : SendCall) (pi : Nat) (events : List SendEvent) : Int → Prop
  | sent {checks tail : List SendEvent} (hchecks : SpaceFound s call pi checks)
      (hevents : events = checks ++ stores s call pi call.plbiNum ++
        [.publish (advance s pi (2 * call.plbiNum))] ++ tail)
      (htail : Waited (advance s pi (2 * call.plbiNum - 1)) tail) : SendOutcome s call pi events 0
  | timedOut (hlen : events.length = maxWaitNotFullTimes + 1) (hfull : ∀ e ∈ events, NoSpace s call e) :
      SendOutcome s call pi events (-etimedout)

section Send

variable {s c : Nat} {st : QueueState} {events : List SendEvent}

/-- The accesses of a call that is waiting for its completion. -/
def Polling (s : Nat) (st : QueueState) (events : List SendEvent) (piSync : Nat)
    (P : List SendEvent → Prop) : Prop :=
  piSync = advance s st.start.ucmdqPi (2 * st.call.plbiNum - 1) ∧
    ∃ checks tail, SpaceFound s st.call st.start.ucmdqPi checks ∧
      events = checks ++ stores s st.call st.start.ucmdqPi st.call.plbiNum ++
        [.publish (advance s st.start.ucmdqPi (2 * st.call.plbiNum))] ++ tail ∧ P tail

/-- No completion yet, and so many polls left. -/
def Waiting (piSync times : Nat) (tail : List SendEvent) : Prop :=
  NoMatch piSync tail ∧ 0 < times ∧ polls tail + times = waitCplqTimes

/-- What the accesses of a call have been, by the place where it is. -/
def SendInv (s : Nat) (st : QueueState) (events : List SendEvent) : Prop :=
  let pi := st.start.ucmdqPi
  match st.pc with
  | .idle => True
  | .spacePi times => st.mem.ucmdqPi = pi ∧
      events.length + times = maxWaitNotFullTimes ∧ ∀ e ∈ events, NoSpace s st.call e
  | .spaceCi times p => st.mem.ucmdqPi = pi ∧ p = pi ∧
      events.length + times = maxWaitNotFullTimes ∧ ∀ e ∈ events, NoSpace s st.call e
  | .readPi => st.mem.ucmdqPi = pi ∧ SpaceFound s st.call pi events
  | .copyPlbi left piWr => ∃ j checks, j + left = st.call.plbiNum ∧ 0 < left ∧
      piWr = advance s pi (2 * j) ∧ SpaceFound s st.call pi checks ∧
      events = checks ++ stores s st.call pi j
  | .copyPsync left piWr => ∃ j checks, j + left = st.call.plbiNum ∧ 0 < left ∧
      piWr = advance s pi (2 * j + 1) ∧ SpaceFound s st.call pi checks ∧
      events = checks ++ stores s st.call pi j ++
        [.store (qIdx (advance s pi (2 * j)) s) st.call.cmdPlbi]
  | .publish piWr piSync => ∃ checks, piWr = advance s pi (2 * st.call.plbiNum) ∧
      piSync = advance s pi (2 * st.call.plbiNum - 1) ∧ SpaceFound s st.call pi checks ∧
      events = checks ++ stores s st.call pi st.call.plbiNum
  | .pollPi times piSync => Polling s st events piSync (Waiting piSync times)
  | .pollCi times piSync _ => Polling s st events piSync (Waiting piSync times)
  | .pollEntry times piSync _ _ => Polling s st events piSync (Waiting piSync times)
  | .pollStore times piSync _ ret =>
    Polling s st events piSync (fun tail =>
      (ret = 0 ∧ ∃ e, SendEvent.read e ∈ tail ∧ e.cmdqCi = piSync) ∨
        (ret ≠ 0 ∧ Waiting piSync times tail))

lemma plbiNum_pos (call : SendCall) : 0 < call.plbiNum := by
  unfold SendCall.plbiNum
  split_ifs <;> omega

lemma stores_succ (s : Nat) (call : SendCall) (pi n : Nat) :
    stores s call pi (n + 1) = stores s call pi n ++
      [.store (qIdx (advance s pi (2 * n)) s) call.cmdPlbi] ++
      [.store (qIdx (advance s pi (2 * n + 1)) s) cmdPsync] := by
  rw [stores, stores, List.range_succ, List.flatMap_append, List.flatMap_singleton, List.append_assoc,
    List.singleton_append]

/-- The invariant of a call at its beginning. -/
lemma sendInv_begin (call : SendCall) : SendInv s (st.begin call) [] :=
  ⟨rfl, rfl, fun _ he => absurd he List.not_mem_nil⟩

/-- The device does not disturb what a call knows about its accesses. -/
lemma SendInv.device {st' : QueueState} (h : SendInv s st events) (hpc : st'.pc = st.pc)
    (hcall : st'.call = st.call) (hstart : st'.start = st.start)
    (hpi : st'.mem.ucmdqPi = st.mem.ucmdqPi) : SendInv s st' events := by
  simp only [SendInv, Polling, hpc, hcall, hstart, hpi] at h ⊢
  exact h

/-- What an access of a call adds: the call goes on as it should, or returns with an outcome. -/
inductive SendNext (s : Nat) (st st' : QueueState) (events : List SendEvent) : Prop where
  | goesOn (hpc : st'.pc ≠ .idle) (hinv : SendInv s st' events) (hcall : st'.call = st.call)
      (hstart : st'.start = st.start) (hresults : st'.results = st.results)
  | returns (code : Int) (hpc : st'.pc = .idle) (hcall : st'.call = st.call)
      (hstart : st'.start = st.start) (hresults : st'.results = st.results ++ [(st.call, code)])
      (h : SendOutcome s st.call st.start.ucmdqPi events code)

lemma polls_append (tail : List SendEvent) (e : SendEvent) :
    polls (tail ++ [e]) = polls tail + if e.isPoll = true then 1 else 0 := by
  rw [polls, List.filter_append, List.length_append, List.filter_singleton]
  cases e.isPoll <;> rfl

lemma NoMatch.append {piSync : Nat} {tail : List SendEvent} {e : SendEvent}
    (h : NoMatch piSync tail) (he : ∀ x, e = .read x → x.cmdqCi ≠ piSync) :
    NoMatch piSync (tail ++ [e]) := by
  intro x hx
  rcases List.mem_append.mp hx with hx | hx
  · exact h x hx
  · exact he x (List.mem_singleton.mp hx).symm

/-- The end of a poll. -/
lemma sendNext_afterPoll {times piSync : Nat} {ret : Int} {st' : QueueState}
    (hcall : st'.call = st.call) (hstart : st'.start = st.start) (hresults : st'.results = st.results)
    (h : Polling s st events piSync (fun tail =>
      (ret = 0 ∧ ∃ e, SendEvent.read e ∈ tail ∧ e.cmdqCi = piSync) ∨
        (ret ≠ 0 ∧ Waiting piSync times tail))) :
    SendNext s st (st'.afterPoll times piSync ret) (events ++ [.poll ret]) := by
  obtain ⟨hsync, checks, tail, hchecks, hevents, htail⟩ := h
  have hall : events ++ [.poll ret] = checks ++ stores s st.call st.start.ucmdqPi st.call.plbiNum ++
      [.publish (advance s st.start.ucmdqPi (2 * st.call.plbiNum))] ++ (tail ++ [.poll ret]) := by
    rw [hevents, List.append_assoc _ tail]
  have hdone : Waited piSync (tail ++ [.poll ret]) →
      SendNext s st (st'.finish 0) (events ++ [.poll ret]) := by
    intro hwaited
    refine .returns 0 rfl hcall hstart ?_ (.sent hchecks hall (hsync ▸ hwaited))
    rw [finish, hresults, hcall]
  have hread : ∀ x : CplEntry, SendEvent.poll ret = .read x → x.cmdqCi ≠ piSync :=
    fun x hx => SendEvent.noConfusion hx
  unfold QueueState.afterPoll
  rcases htail with ⟨hret, e, he, hci⟩ | ⟨hret, hno, hpos, hpolls⟩
  · rw [if_pos hret]
    exact hdone (.found e (List.mem_append_left _ he) hci)
  · rw [if_neg hret]
    have hcount : polls (tail ++ [.poll ret]) = polls tail + 1 := polls_append tail (.poll ret)
    by_cases hlast : times - 1 = 0
    · rw [if_pos hlast]
      exact hdone (.gaveUp (hno.append hread) (by omega))
    · rw [if_neg hlast]
      refine .goesOn (nomatch ·) ?_ hcall hstart hresults
      simp only [SendInv, Polling, hcall, hstart]
      exact ⟨hsync, checks, _, hchecks, hall, hno.append hread, by omega, by omega⟩

/-- One access of a call. -/
theorem sendNext_sendStep (h : SendInv s st events) (hpc : st.pc ≠ .idle) :
    SendNext s st (st.sendStep s c) (events ++ st.events s c) := by
  have hpos := plbiNum_pos st.call
  have hone : 2 * st.call.plbiNum - 1 = 2 * (st.call.plbiNum - 1) + 1 := by omega
  unfold SendInv at h
  unfold sendStep QueueState.events
  cases hst : st.pc with
  | idle => exact (hpc hst).elim
  | spacePi times =>
    rw [hst] at h
    refine .goesOn (nomatch ·) ?_ rfl rfl rfl
    rw [List.append_nil]
    exact ⟨h.1, h.1, h.2⟩
  | spaceCi times pi =>
    rw [hst] at h
    obtain ⟨hreg, rfl, hlen, hfull⟩ := h
    simp only
    by_cases hspace : queueHasSpace st.start.ucmdqPi st.mem.ucmdqCi s
        (cmdNumPerPlbi * st.call.plbiNum) = true
    · rw [if_pos hspace]
      exact .goesOn (nomatch ·) ⟨hreg, events, _, hfull, hspace, rfl⟩ rfl rfl rfl
    rw [if_neg hspace]
    have hnew : ∀ e ∈ events ++ [.space st.start.ucmdqPi st.mem.ucmdqCi], NoSpace s st.call e := by
      intro e he
      rcases List.mem_append.mp he with he | he
      · exact hfull e he
      · exact ⟨_, _, List.mem_singleton.mp he, Bool.eq_false_iff.mpr hspace⟩
    have hlonger : (events ++ [SendEvent.space st.start.ucmdqPi st.mem.ucmdqCi]).length = events.length + 1 :=
      List.length_append
    by_cases htimes : times = 0
    · rw [if_pos htimes]
      exact .returns (-etimedout) rfl rfl rfl rfl (.timedOut (by omega) hnew)
    · rw [if_neg htimes]
      exact .goesOn (nomatch ·) ⟨hreg, by omega, hnew⟩ rfl rfl rfl
  | readPi =>
    rw [hst] at h
    obtain ⟨hreg, hfound⟩ := h
    refine .goesOn (nomatch ·) ⟨0, events, Nat.zero_add _, hpos, ?_, hfound, ?_⟩ rfl rfl rfl
    · exact hreg
    · rfl
  | copyPlbi left piWr =>
    rw [hst] at h
    obtain ⟨j, checks, hj, hleft, rfl, hfound, rfl⟩ := h
    exact .goesOn (nomatch ·) ⟨j, checks, hj, hleft, (advance_succ _).symm, hfound, rfl⟩ rfl rfl rfl
  | copyPsync left piWr =>
    rw [hst] at h
    obtain ⟨j, checks, hj, hleft, rfl, hfound, rfl⟩ := h
    have hnext : ummuUpdateQueueIndex s (advance s st.start.ucmdqPi (2 * j + 1)) =
        advance s st.start.ucmdqPi (2 * (j + 1)) := (advance_succ _).symm
    have hstores : checks ++ stores s st.call st.start.ucmdqPi j ++
        [.store (qIdx (advance s st.start.ucmdqPi (2 * j)) s) st.call.cmdPlbi] ++
        [.store (qIdx (advance s st.start.ucmdqPi (2 * j + 1)) s) cmdPsync] =
        checks ++ stores s st.call st.start.ucmdqPi (j + 1) := by
      rw [stores_succ]
      simp only [List.append_assoc]
    simp only
    rw [hnext, hstores]
    by_cases hlast : left - 1 = 0
    · rw [if_pos hlast]
      have hjn : j + 1 = st.call.plbiNum := by omega
      refine .goesOn (nomatch ·) ⟨checks, ?_, ?_, hfound, ?_⟩ rfl rfl rfl
      · exact congrArg (fun n => advance s st.start.ucmdqPi (2 * n)) hjn
      · rw [hone, ← hjn]
        rfl
      · exact congrArg (fun n => checks ++ stores s st.call st.start.ucmdqPi n) hjn
    · rw [if_neg hlast]
      have hj' : j + 1 + (left - 1) = st.call.plbiNum := by omega
      exact .goesOn (nomatch ·) ⟨j + 1, checks, hj', by omega, rfl, hfound, rfl⟩ rfl rfl rfl
  | publish piWr piSync =>
    rw [hst] at h
    obtain ⟨checks, rfl, hsync, hfound, rfl⟩ := h
    refine .goesOn (nomatch ·) ⟨hsync, checks, [], hfound, (List.append_nil _).symm, ?_⟩ rfl rfl rfl
    exact ⟨fun _ he => absurd he List.not_mem_nil, by decide, rfl⟩
  | pollPi times piSync =>
    rw [hst] at h
    rw [List.append_nil]
    exact .goesOn (nomatch ·) h rfl rfl rfl
  | pollCi times piSync cplPi =>
    rw [hst] at h
    simp only
    by_cases hempty : cplPi = st.mem.ucplqCi
    · rw [if_pos hempty, if_pos hempty]
      obtain ⟨hsync, checks, tail, hchecks, hevents, hwaiting⟩ := h
      have heinval : (-einval : Int) ≠ 0 := by decide
      exact sendNext_afterPoll rfl rfl rfl
        ⟨hsync, checks, tail, hchecks, hevents, Or.inr ⟨heinval, hwaiting⟩⟩
    · rw [if_neg hempty, if_neg hempty, List.append_nil]
      exact .goesOn (nomatch ·) h rfl rfl rfl
  | pollEntry times piSync cplPi cplCi =>
    rw [hst] at h
    obtain ⟨hsync, checks, tail, hchecks, rfl, hno, htimes, hpolls⟩ := h
    simp only
    generalize hentry : st.mem.cplEntry (cplCi &&& toUint16 (maxCmdQueIndex c)) = e
    have hpolls' : polls (tail ++ [.read e]) = polls tail := polls_append tail (.read e)
    have hmatch : (cplRound c piSync st.mem.cplEntry cplCi).1 = decide (e.cmdqCi = piSync) := by
      rw [← hentry]
      rfl
    have heagain : (-eagain : Int) ≠ 0 := by decide
    rw [hmatch, List.append_assoc _ tail]
    by_cases hci : e.cmdqCi = piSync
    · simp only [hci, decide_true, if_true]
      refine .goesOn (nomatch ·) ⟨hsync, checks, _, hchecks, rfl, Or.inl ⟨rfl, e, ?_, hci⟩⟩ rfl rfl rfl
      exact List.mem_append_right _ (List.mem_singleton_self _)
    · have hno' : NoMatch piSync (tail ++ [.read e]) := by
        refine hno.append (fun x hx => ?_)
        rw [← SendEvent.read.inj hx]
        exact hci
      have hwaiting : Waiting piSync times (tail ++ [.read e]) :=
        ⟨hno', htimes, by rw [hpolls']; exact hpolls⟩
      simp only [hci, decide_false, Bool.false_eq_true, if_false]
      by_cases hend : cplPi = (cplRound c piSync st.mem.cplEntry cplCi).2
      · rw [if_pos hend]
        exact .goesOn (nomatch ·) ⟨hsync, checks, _, hchecks, rfl, Or.inr ⟨heagain, hwaiting⟩⟩
          rfl rfl rfl
      · rw [if_neg hend]
        exact .goesOn (nomatch ·) ⟨hsync, checks, _, hchecks, rfl, hwaiting⟩ rfl rfl rfl
  | pollStore times piSync cplCi ret =>
    rw [hst] at h
    exact sendNext_afterPoll rfl rfl rfl h

end Send

end Ummu
