import Ummu.Queue
import Ummu.Lib.Run

/-!
# Runs of one queue

`ummu_send_cmd` and the polls in it as single accesses to the memory that the driver shares with
the device. Between any two accesses the device may act.
-/

namespace Ummu

/-- The rings and the control page of one queue. -/
structure QueueMem where
  ucmdqPi : Nat
  ucmdqCi : Nat
  ucplqPi : Nat
  ucplqCi : Nat
  cmdEntry : Nat → CmdEntry
  cplEntry : Nat → CplEntry

/-- The arguments of a call of `ummu_send_cmd` on the queue. -/
structure SendCall where
  cmdPlbi : CmdEntry
  doublePlbi : Bool

def SendCall.plbiNum (call : SendCall) : Nat := if call.doublePlbi then 2 else 1

/-- `cmd_psync`. -/
def cmdPsync : CmdEntry := ⟨psyncOp, true, 0, 0⟩

/-- The entries that a call publishes. -/
def SendCall.commands (call : SendCall) : List CmdEntry :=
  (List.replicate call.plbiNum [call.cmdPlbi, cmdPsync]).flatten

def maxWaitNotFullTimes : Nat := 300
def waitCplqTimes : Nat := 4

/-- Where a call is, before its next access, with the locals it still needs. -/
inductive SendPc where
  | idle
  | spacePi (times : Nat)
  | spaceCi (times pi : Nat)
  | readPi
  | copyPlbi (left piWr : Nat)
  | copyPsync (left piWr : Nat)
  | publish (piWr piSync : Nat)
  | pollPi (times piSync : Nat)
  | pollCi (times piSync cplPi : Nat)
  | pollEntry (times piSync cplPi cplCi : Nat)
  | pollStore (times piSync cplCi : Nat) (ret : Int)
deriving DecidableEq

/-- A queue and the call on it. What the accesses leave no trace of is recorded beside them: the
memory when the call began, the calls that returned, the commands that the device fetched and the
completions that the driver read. -/
structure QueueState where
  mem : QueueMem
  pc : SendPc
  call : SendCall
  start : QueueMem
  results : List (SendCall × Int)
  fetched : List CmdEntry
  consumed : List CplEntry

namespace QueueState

def begin (st : QueueState) (call : SendCall) : QueueState :=
  { st with pc := .spacePi maxWaitNotFullTimes, call := call, start := st.mem }

def finish (st : QueueState) (code : Int) : QueueState :=
  { st with pc := .idle, results := st.results ++ [(st.call, code)] }

/-- The end of a round of the wait for the completion. -/
def afterPoll (st : QueueState) (times piSync : Nat) (ret : Int) : QueueState :=
  if ret = 0 then st.finish 0
  else if times - 1 = 0 then st.finish 0
  else { st with pc := .pollPi (times - 1) piSync }

/-- The next access of a call. -/
def sendStep (s c : Nat) (st : QueueState) : QueueState :=
  match st.pc with
  | .idle => st
  | .spacePi times => { st with pc := .spaceCi times st.mem.ucmdqPi }
  | .spaceCi times pi =>
    if queueHasSpace pi st.mem.ucmdqCi s (cmdNumPerPlbi * st.call.plbiNum) then
      { st with pc := .readPi }
    else if times = 0 then st.finish (-etimedout)
    else { st with pc := .spacePi (times - 1) }
  | .readPi => { st with pc := .copyPlbi st.call.plbiNum st.mem.ucmdqPi }
  | .copyPlbi left piWr =>
    { st with
      mem := { st.mem with
        cmdEntry := Function.update st.mem.cmdEntry (qIdx piWr s) st.call.cmdPlbi }
      pc := .copyPsync left (ummuUpdateQueueIndex s piWr) }
  | .copyPsync left piWr =>
    { st with
      mem := { st.mem with cmdEntry := Function.update st.mem.cmdEntry (qIdx piWr s) cmdPsync }
      pc :=
        if left - 1 = 0 then .publish (ummuUpdateQueueIndex s piWr) piWr
        else .copyPlbi (left - 1) (ummuUpdateQueueIndex s piWr) }
  | .publish piWr piSync =>
    { st with mem := { st.mem with ucmdqPi := piWr }, pc := .pollPi waitCplqTimes piSync }
  | .pollPi times piSync => { st with pc := .pollCi times piSync st.mem.ucplqPi }
  | .pollCi times piSync cplPi =>
    if cplPi = st.mem.ucplqCi then st.afterPoll times piSync (-einval)
    else { st with pc := .pollEntry times piSync cplPi st.mem.ucplqCi }
  | .pollEntry times piSync cplPi cplCi =>
    let idxMask := toUint16 (maxCmdQueIndex c)
    let r := cplRound c piSync st.mem.cplEntry cplCi
    { st with
      consumed := st.consumed ++ [st.mem.cplEntry (cplCi &&& idxMask)]
      pc :=
        if r.1 then .pollStore times piSync r.2 0
        else if cplPi = r.2 then .pollStore times piSync r.2 (-eagain)
        else .pollEntry times piSync cplPi r.2 }
  | .pollStore times piSync cplCi ret =>
    { st with mem := { st.mem with ucplqCi := cplCi } }.afterPoll times piSync ret

/-- The driver begins a call, or goes on with the one it is in. -/
inductive DriverNext (s c : Nat) (st : QueueState) : QueueState → Prop
  | call (call : SendCall) : st.pc = .idle → DriverNext s c st (st.begin call)
  | step : st.pc ≠ .idle → DriverNext s c st (st.sendStep s c)

/-- The device takes the command at `ucmdq_ci`. -/
def fetch (s : Nat) (st : QueueState) : QueueState :=
  { st with
    mem := { st.mem with ucmdqCi := ummuUpdateQueueIndex s st.mem.ucmdqCi }
    fetched := st.fetched ++ [st.mem.cmdEntry (qIdx st.mem.ucmdqCi s)] }

/-- Any device: it fetches the next command or writes to the completion ring. -/
inductive Next (s c : Nat) (st : QueueState) : QueueState → Prop
  | driver {st' : QueueState} : DriverNext s c st st' → Next s c st st'
  | fetch : st.mem.ucmdqCi ≠ st.mem.ucmdqPi → Next s c st (st.fetch s)
  | post (ucplqPi : Nat) (cplEntry : Nat → CplEntry) :
      Next s c st { st with mem := { st.mem with ucplqPi := ucplqPi, cplEntry := cplEntry } }

/-- No call yet, and no command outstanding. -/
structure Start (idx : Nat) (st : QueueState) : Prop where
  lt : idx < 2 ^ 16
  pi : st.mem.ucmdqPi = idx
  ci : st.mem.ucmdqCi = idx
  idle : st.pc = .idle
  results : st.results = []
  fetched : st.fetched = []
  consumed : st.consumed = []

/-- The slot into which the next access of the call stores a command. -/
def storeSlot (s : Nat) (st : QueueState) : Option Nat :=
  match st.pc with
  | .copyPlbi _ piWr => some (qIdx piWr s)
  | .copyPsync _ piWr => some (qIdx piWr s)
  | _ => none

/-- The call waits for a completion of what it published. -/
def polling (st : QueueState) : Bool :=
  match st.pc with
  | .pollPi _ _ => true
  | .pollCi _ _ _ => true
  | .pollEntry _ _ _ _ => true
  | .pollStore _ _ _ _ => true
  | _ => false

/-- The calls that returned zero, in order. -/
def succeeded (st : QueueState) : List SendCall :=
  (st.results.filter (fun r => r.2 = 0)).map Prod.fst

/-- The calls that have published their commands: those that returned zero, and the one that waits
for its completion. -/
def published (st : QueueState) : List SendCall :=
  st.succeeded ++ if st.polling then [st.call] else []

/-- The commands published so far. -/
def sent (st : QueueState) : List CmdEntry := st.published.flatMap SendCall.commands

end QueueState

/-- A queue as it is after its creation. -/
def freshQueue : QueueState where
  mem := ⟨0, 0, 0, 0, fun _ => ⟨0, false, 0, 0⟩, fun _ => ⟨0, 0⟩⟩
  pc := .idle
  call := ⟨⟨0, false, 0, 0⟩, false⟩
  start := ⟨0, 0, 0, 0, fun _ => ⟨0, false, 0, 0⟩, fun _ => ⟨0, 0⟩⟩
  results := []
  fetched := []
  consumed := []

/-- The call that `ummu_send_user_all` makes. -/
def sendUserAll : SendCall := ⟨⟨plbiAllOp, false, 0, 0⟩, false⟩

end Ummu
