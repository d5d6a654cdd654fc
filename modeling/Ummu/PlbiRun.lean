import Ummu.SendTrace
import Ummu.CallSteps

/-!
# Invalidations through the queues of a tid

A run of calls on a tid with queues of its own. `ummu_plbi_va_cmd` sends its command to one queue
after another; between any two accesses the device may act on any queue.
-/

namespace Ummu

open Lib QueueState

/-- `cmd_va_entry` of `ummu_plbi_va_cmd`. -/
def plbiVaCmd (range : PlbiRange) : CmdEntry :=
  ⟨plbiVaOp, false, BitVec.ofNat 6 (getMinistLog2sizeRange range.dataSize),
    BitVec.ofNat 64 range.dataBase⟩

/-- The calls of `ummu_send_cmd` that `ummu_send_plbi` makes, each with the number of its queue. -/
def plbiSends (ctx : QueueCtx) (info : MaptInfo) (ranges : List PlbiRange) : List (Nat × SendCall) :=
  if info.kcmdPlbi then []
  else ranges.flatMap (fun range =>
    (List.range ctx.ummuCnt.toNat).map (fun i => (i, ⟨plbiVaCmd range, info.doublePlbi⟩)))

/-- A call of `ummu_send_cmd` that has returned `code`; `pi` is `ucmdq_pi` as it found it. -/
structure SendRecord where
  queue : Nat
  call : SendCall
  pi : Nat
  events : List SendEvent
  code : Int

/-- A call of the API that has returned `ret`, with the tid as it found it. -/
structure CallRecord where
  info : MaptInfo
  call : ApiCall
  ret : Int
  sends : List SendRecord

/-- A call of the API whose invalidation is being sent. -/
structure Sending where
  info : MaptInfo
  call : ApiCall
  todo : List (Nat × SendCall)
  active : Bool
  events : List SendEvent
  done : List SendRecord

/-- A tid with its queues, and the call on it. -/
structure TidRun where
  info : MaptInfo
  queues : Nat → QueueState
  sending : Option Sending
  returned : List CallRecord

namespace TidRun

/-- A call begins: its tables are changed, its invalidation is to be sent. -/
def begin (ctx : QueueCtx) (st : TidRun) (call : ApiCall) : TidRun :=
  { st with
    info := (call.run st.info).info
    sending := some ⟨st.info, call, plbiSends ctx st.info (call.run st.info).plbi, false, [], []⟩ }

def setQueue (st : TidRun) (i : Nat) (q : QueueState) : TidRun :=
  { st with queues := Function.update st.queues i q }

/-- The code of the call on a queue that returned last. -/
def lastCode (q : QueueState) : Int := (q.results.getLast?.map Prod.snd).getD 0

/-- The next action of the call. The codes of `ummu_send_cmd` are dropped. -/
def step (ctx : QueueCtx) (st : TidRun) : TidRun :=
  match st.sending with
  | none => st
  | some p =>
    match p.todo with
    | [] =>
      { st with
        sending := none
        returned := st.returned ++ [⟨p.info, p.call, (p.call.run p.info).ret, p.done⟩] }
    | (i, send) :: rest =>
      let q := st.queues i
      if p.active = false then
        { st.setQueue i (q.begin send) with sending := some { p with active := true, events := [] } }
      else if q.pc = .idle then
        { st with
          sending := some { p with
            todo := rest
            active := false
            done := p.done ++ [⟨i, send, q.start.ucmdqPi, p.events, lastCode q⟩] } }
      else
        { st.setQueue i (q.sendStep ctx.cmdQuePiSize ctx.cplQueSize) with
          sending := some { p with
            events := p.events ++ q.events ctx.cmdQuePiSize ctx.cplQueSize } }

/-- What any device may do on a queue. -/
inductive DeviceNext (s : Nat) (q : QueueState) : QueueState → Prop
  | fetch (h : q.mem.ucmdqCi ≠ q.mem.ucmdqPi) : DeviceNext s q (q.fetch s)
  | post (ucplqPi : Nat) (cplEntry : Nat → CplEntry) :
      DeviceNext s q { q with mem := { q.mem with ucplqPi := ucplqPi, cplEntry := cplEntry } }

inductive Next (ctx : QueueCtx) (st : TidRun) : TidRun → Prop
  | call (call : ApiCall) (h : st.sending = none) : Next ctx st (st.begin ctx call)
  | step (h : st.sending ≠ none) : Next ctx st (st.step ctx)
  | device (i : Nat) {q : QueueState} (h : DeviceNext ctx.cmdQuePiSize (st.queues i) q) :
      Next ctx st (st.setQueue i q)

/-- A tid that invalidates through its queues, before the first call of the run. -/
structure Start (st : TidRun) : Prop where
  queues : st.info.kcmdPlbi = false
  idle : ∀ i, (st.queues i).pc = .idle
  sending : st.sending = none
  returned : st.returned = []

def Reach (ctx : QueueCtx) : TidRun → Prop := Reachable Start (Next ctx)

end TidRun

/-- What is known of the call of `ummu_send_cmd` that is under way. -/
def ActiveInv (s : Nat) (q : QueueState) (send : SendCall) (events : List SendEvent) : Prop :=
  q.call = send ∧
    ((q.pc ≠ .idle ∧ SendInv s q events) ∨
      ∃ code, q.pc = .idle ∧ q.results.getLast? = some (send, code) ∧
        SendOutcome s send q.start.ucmdqPi events code)

/-- A call of `ummu_send_cmd` that has returned did one of the two things it can do. -/
def SendRecord.Ok (s : Nat) (x : SendRecord) : Prop := SendOutcome s x.call x.pi x.events x.code

def SendRecord.send (x : SendRecord) : Nat × SendCall := (x.queue, x.call)

structure SendingInv (ctx : QueueCtx) (st : TidRun) (p : Sending) : Prop where
  queues : p.info.kcmdPlbi = false
  sends : p.done.map SendRecord.send ++ p.todo = plbiSends ctx p.info (p.call.run p.info).plbi
  done : ∀ x ∈ p.done, x.Ok ctx.cmdQuePiSize
  idle : ∀ i, (p.active = true → ∀ send rest, p.todo ≠ (i, send) :: rest) → (st.queues i).pc = .idle
  active : p.active = true → ∃ i send rest, p.todo = (i, send) :: rest ∧
    ActiveInv ctx.cmdQuePiSize (st.queues i) send p.events

structure TidRunInv (ctx : QueueCtx) (st : TidRun) : Prop where
  queues : st.info.kcmdPlbi = false
  idle : st.sending = none → ∀ i, (st.queues i).pc = .idle
  sending : ∀ p, st.sending = some p → SendingInv ctx st p
  returned : ∀ x ∈ st.returned, x.info.kcmdPlbi = false ∧ x.ret = (x.call.run x.info).ret ∧
    x.sends.map SendRecord.send = plbiSends ctx x.info (x.call.run x.info).plbi ∧
    ∀ y ∈ x.sends, y.Ok ctx.cmdQuePiSize

section Run

variable {ctx : QueueCtx} {st st' : TidRun} {s : Nat} {q q' : QueueState} {send : SendCall}
  {events : List SendEvent}

/-- The device does not change where a call is, nor what it was called with. -/
lemma deviceNext_frame (h : TidRun.DeviceNext s q q') : q'.pc = q.pc ∧ q'.call = q.call ∧
    q'.start = q.start ∧ q'.results = q.results ∧ q'.mem.ucmdqPi = q.mem.ucmdqPi := by
  cases h with
  | fetch => exact ⟨rfl, rfl, rfl, rfl, rfl⟩
  | post => exact ⟨rfl, rfl, rfl, rfl, rfl⟩

lemma ActiveInv.device (h : ActiveInv s q send events) (hd : TidRun.DeviceNext s q q') :
    ActiveInv s q' send events := by
  obtain ⟨hpc, hcall, hstart, hresults, hpi⟩ := deviceNext_frame hd
  refine ⟨hcall.trans h.1, ?_⟩
  rw [hpc, hresults, hstart]
  exact h.2.imp_left fun ⟨hne, hinv⟩ => ⟨hne, hinv.device hpc hcall hstart hpi⟩

/-- One access of the call that is under way. -/
lemma ActiveInv.step {c : Nat} (h : ActiveInv s q send events) (hpc : q.pc ≠ .idle) :
    ActiveInv s (q.sendStep s c) send (events ++ q.events s c) := by
  obtain ⟨rfl, ⟨_, hinv⟩ | ⟨_, hidle, _⟩⟩ := h
  · cases sendNext_sendStep (c := c) hinv hpc with
    | goesOn hpc' hinv' hcall hstart hresults => exact ⟨hcall, Or.inl ⟨hpc', hinv'⟩⟩
    | returns code hpc' hcall hstart hresults hout =>
      refine ⟨hcall, Or.inr ⟨code, hpc', ?_, ?_⟩⟩
      · rw [hresults, List.getLast?_append, List.getLast?_singleton, Option.some_or]
      · rw [hstart]
        exact hout
  · exact (hpc hidle).elim

lemma setQueue_self (i : Nat) : (st.setQueue i q).queues i = q := Function.update_self ..

lemma setQueue_of_ne {i j : Nat} (h : j ≠ i) : (st.setQueue i q).queues j = st.queues j :=
  Function.update_of_ne h ..

lemma tidRunInv_start (h : TidRun.Start st) : TidRunInv ctx st := by
  refine ⟨h.queues, fun _ => h.idle, ?_, ?_⟩
  · rw [h.sending]
    intro p hp
    cases hp
  · rw [h.returned]
    exact fun _ hx => absurd hx List.not_mem_nil

lemma tidRunInv_begin (h : TidRunInv ctx st) (hidle : st.sending = none) (call : ApiCall) :
    TidRunInv ctx (st.begin ctx call) := by
  obtain ⟨b, hb⟩ := @run_frame st.info call
  refine ⟨?_, (nomatch ·), ?_, h.returned⟩
  · have hinfo : (st.begin ctx call).info = { st.info with blockBase := b } := hb
    rw [hinfo]
    exact h.queues
  · intro p hp
    obtain rfl := Option.some.inj hp
    exact ⟨h.queues, rfl, fun _ hx => absurd hx List.not_mem_nil, fun i _ => h.idle hidle i,
      (nomatch ·)⟩

lemma tidRunInv_device (h : TidRunInv ctx st) (i : Nat)
    (hd : TidRun.DeviceNext ctx.cmdQuePiSize (st.queues i) q) :
    TidRunInv ctx (st.setQueue i q) := by
  have hpc : ∀ j, ((st.setQueue i q).queues j).pc = (st.queues j).pc := by
    intro j
    by_cases hj : j = i
    · rw [hj, setQueue_self, (deviceNext_frame hd).1]
    · rw [setQueue_of_ne hj]
  refine ⟨h.queues, fun hs j => (hpc j).trans (h.idle hs j), fun p hp => ?_, h.returned⟩
  have hold := h.sending p hp
  refine ⟨hold.queues, hold.sends, hold.done, fun j hj => (hpc j).trans (hold.idle j hj), fun ha => ?_⟩
  obtain ⟨j, send, rest, htodo, hactive⟩ := hold.active ha
  refine ⟨j, send, rest, htodo, ?_⟩
  by_cases hj : j = i
  · subst hj
    rw [setQueue_self]
    exact hactive.device hd
  · rw [setQueue_of_ne hj]
    exact hactive

/-- An action of the call that is being sent. -/
lemma tidRunInv_step (h : TidRunInv ctx st) (hs : st.sending ≠ none) :
    TidRunInv ctx (st.step ctx) := by
  obtain ⟨p, hp⟩ := Option.ne_none_iff_exists'.mp hs
  have hold := h.sending p hp
  cases htodo : p.todo with
  | nil =>
    have hstep : st.step ctx = { st with
        sending := none
        returned := st.returned ++ [⟨p.info, p.call, (p.call.run p.info).ret, p.done⟩] } := by
      simp only [TidRun.step, hp, htodo]
    rw [hstep]
    refine ⟨h.queues, fun _ i => hold.idle i fun _ send rest he => ?_, fun p' hp' =>
      (Option.some_ne_none p' hp'.symm).elim, fun x hx => ?_⟩
    · rw [htodo] at he
      cases he
    · rcases List.mem_append.mp hx with hx | hx
      · exact h.returned x hx
      · rw [List.mem_singleton.mp hx]
        have hsends := hold.sends
        rw [htodo, List.append_nil] at hsends
        exact ⟨hold.queues, rfl, hsends, hold.done⟩
  | cons next rest =>
    obtain ⟨i, send⟩ := next
    by_cases hactive : p.active = false
    · have hstep : st.step ctx = { st.setQueue i ((st.queues i).begin send) with
          sending := some { p with active := true, events := [] } } := by
        simp only [TidRun.step, hp, htodo, hactive, if_true]
      rw [hstep]
      refine ⟨h.queues, (nomatch ·), fun p' hp' => ?_, h.returned⟩
      obtain rfl := Option.some.inj hp'
      refine ⟨hold.queues, hold.sends, hold.done, fun j hj => ?_, fun _ => ⟨i, send, rest, htodo, ?_⟩⟩
      · have hne : j ≠ i := by
          rintro rfl
          exact hj rfl send rest htodo
        refine (congrArg QueueState.pc (setQueue_of_ne hne)).trans (hold.idle j fun ha => ?_)
        rw [hactive] at ha
        cases ha
      · have hbegin : ActiveInv ctx.cmdQuePiSize ((st.queues i).begin send) send [] :=
          ⟨rfl, Or.inl ⟨(nomatch ·), sendInv_begin send⟩⟩
        rwa [← @setQueue_self st ((st.queues i).begin send) i] at hbegin
    · have hactive' : p.active = true := Bool.not_eq_false _ ▸ hactive
      obtain ⟨j, send', rest', htodo', hinv⟩ := hold.active hactive'
      rw [htodo] at htodo'
      obtain ⟨hhead, rfl⟩ := List.cons.inj htodo'
      obtain ⟨rfl, rfl⟩ := Prod.mk.inj hhead
      have hothers : ∀ j, j ≠ i → (st.queues j).pc = .idle := by
        intro j hj
        refine hold.idle j fun _ send'' rest'' he => ?_
        rw [htodo] at he
        exact hj (Prod.mk.inj (List.cons.inj he).1).1.symm
      by_cases hpc : (st.queues i).pc = .idle
      · have hstep : st.step ctx = { st with
            sending := some { p with
              todo := rest
              active := false
              done := p.done ++ [⟨i, send, (st.queues i).start.ucmdqPi, p.events,
                TidRun.lastCode (st.queues i)⟩] } } := by
          simp only [TidRun.step, hp, htodo, if_neg hactive, if_pos hpc]
        obtain ⟨_, ⟨hne, _⟩ | ⟨code, _, hlast, hout⟩⟩ := hinv
        · exact (hne hpc).elim
        rw [hstep]
        refine ⟨h.queues, (nomatch ·), fun p' hp' => ?_, h.returned⟩
        obtain rfl := Option.some.inj hp'
        refine ⟨hold.queues, ?_, fun x hx => ?_, fun j _ => ?_, (nomatch ·)⟩
        · have hsends := hold.sends
          rw [htodo] at hsends
          rw [← hsends, List.map_append, List.append_assoc]
          rfl
        · rcases List.mem_append.mp hx with hx | hx
          · exact hold.done x hx
          · rw [List.mem_singleton.mp hx, SendRecord.Ok, TidRun.lastCode, hlast]
            exact hout
        · by_cases hj : j = i
          · rw [hj]
            exact hpc
          · exact hothers j hj
      · have hstep : st.step ctx = { st.setQueue i
              ((st.queues i).sendStep ctx.cmdQuePiSize ctx.cplQueSize) with
            sending := some { p with
              events := p.events ++ (st.queues i).events ctx.cmdQuePiSize ctx.cplQueSize } } := by
          simp only [TidRun.step, hp, htodo, if_neg hactive, if_neg hpc]
        rw [hstep]
        refine ⟨h.queues, (nomatch ·), fun p' hp' => ?_, h.returned⟩
        obtain rfl := Option.some.inj hp'
        refine ⟨hold.queues, hold.sends, hold.done, fun j hj => ?_,
          fun _ => ⟨i, send, rest, htodo, ?_⟩⟩
        · have hne : j ≠ i := by
            rintro rfl
            exact hj hactive' send rest htodo
          exact (congrArg QueueState.pc (setQueue_of_ne hne)).trans (hothers j hne)
        · have hnext := hinv.step (c := ctx.cplQueSize) hpc
          rwa [← @setQueue_self st ((st.queues i).sendStep ctx.cmdQuePiSize ctx.cplQueSize) i] at hnext

theorem tidRun_inv (h : TidRun.Reach ctx st) : TidRunInv ctx st := by
  refine Reachable.invariant h (fun s hs => tidRunInv_start hs) (fun s s' hinv hs => ?_)
  cases hs with
  | call call hidle => exact tidRunInv_begin hinv hidle call
  | step hne => exact tidRunInv_step hinv hne
  | device i hd => exact tidRunInv_device hinv i hd

end Run

end Ummu
