import Ummu.Resource

/-!
# Command and completion queues

The index arithmetic of `ummu_queue.c` and `ummu_queue.h`, the size of a queue as
`ummu_queue_create` sets it, and one poll of the completion queue. Values of type `uint16_t` are
natural numbers below `2 ^ 16`; the intermediate results are `int`.
-/

namespace Ummu

def eagain : Int := 11
def etimedout : Int := 110

/-- The conversion of an `int` to `uint16_t`. -/
def toUint16 (x : Int) : Nat := (x % 2 ^ 16).toNat

/-- `MAX_CMD_QUE_INDEX`. -/
def maxCmdQueIndex (size : Nat) : Nat := 1 <<< size - 1

/-- `Q_WRAP`. -/
def qWrap (idx size : Nat) : Nat := idx &&& 1 <<< size

/-- `Q_IDX`. -/
def qIdx (idx size : Nat) : Nat := idx &&& (1 <<< size - 1)

/-- `queue_has_space`. -/
def queueHasSpace (pi ci cmdQueSize n : Nat) : Bool :=
  let ciRd := toUint16 (qIdx ci cmdQueSize)
  let piWr := toUint16 (qIdx pi cmdQueSize)
  let space : Nat :=
    if qWrap pi cmdQueSize = qWrap ci cmdQueSize then
      toUint16 ((1 <<< cmdQueSize : Nat) - ((piWr : Int) - ciRd))
    else toUint16 ((ciRd : Int) - piWr)
  decide (n ≤ space)

/-- `ummu_update_queue_index`. -/
def ummuUpdateQueueIndex (queSize index : Nat) : Nat :=
  let maxQue := toUint16 (maxCmdQueIndex queSize)
  let idx := index &&& maxQue
  let idxWrap := index >>> queSize
  if idx = maxQue then toUint16 ((idxWrap ^^^ 1) <<< queSize ||| 0 : Nat)
  else toUint16 (idxWrap <<< queSize ||| (idx + 1) : Nat)

/-- `__builtin_ctz` of an `unsigned int`. -/
def ctz (x : BitVec 32) : Nat :=
  match firstIndex (fun i => x.getLsbD i) 0 32 with
  | some i => i
  | none => 32

/-- `PAGE_SIZE`, from the `int` that `getpagesize` returns. -/
def pageSize (getpagesize : BitVec 32) : BitVec 64 := getpagesize.signExtend 64

/-- `PAGE_SHIFT`. -/
def pageShift (getpagesize : BitVec 32) : Nat :=
  if 0 < pageSize getpagesize / 0x1000 then
    12 + ctz ((pageSize getpagesize / 0x1000).setWidth 32)
  else 12

def cmdEntryShift : Nat := 4
def cplEntryShift : Nat := 2

/-- `cmd_que_pi_size` and `cpl_que_size` as `ummu_queue_create` computes them. -/
def cmdQuePiSize (getpagesize : BitVec 32) (pcmdqOrder : BitVec 8) : Nat :=
  toUint16 (pcmdqOrder.toNat + (pageShift getpagesize % 2 ^ 8 : Nat) - cmdEntryShift)

def cplQueSize (getpagesize : BitVec 32) (pcplqOrder : BitVec 8) : Nat :=
  toUint16 (pcplqOrder.toNat + (pageShift getpagesize % 2 ^ 8 : Nat) - cplEntryShift)

/-- `struct ummu_mapt_queue_args`, with its pointers as addresses. -/
structure QueueArgs where
  cmdEntry : BitVec 64
  cplEntry : BitVec 64
  ctrlPage : BitVec 64

/-- `struct ummu_mapt_queue_ctx`. -/
structure QueueCtx where
  ummuCnt : BitVec 32
  queueSize : BitVec 64
  cmdQuePiSize : Nat
  cplQueSize : Nat
  queue : List QueueArgs

def QueueCtx.zero : QueueCtx := ⟨0, 0, 0, 0, []⟩

/-- The part of `struct ummu_tid_info` that `ummu_queue_create` reads. -/
structure QueueInfo where
  pcmdqOrder : BitVec 8
  pcplqOrder : BitVec 8
  ummuCnt : BitVec 32

/-- What the system gives to `ummu_queue_create`: the page size, the `malloc` and the `mmap`. -/
structure QueueEnv where
  getpagesize : BitVec 32
  argsAlloc : Bool
  queueMap : Option (BitVec 64)

/-- The size of the buffer of one queue. -/
def queueBufSize (getpagesize : BitVec 32) (info : QueueInfo) : BitVec 64 :=
  pageSize getpagesize * (1 + 1 <<< info.pcmdqOrder.toNat + 1 <<< info.pcplqOrder.toNat)

def queueArgsAt (getpagesize : BitVec 32) (info : QueueInfo) (startAddr : BitVec 64) : QueueArgs where
  cmdEntry := startAddr
  cplEntry := startAddr + pageSize getpagesize * (1 <<< info.pcmdqOrder.toNat)
  ctrlPage := startAddr + pageSize getpagesize *
    (1 <<< info.pcmdqOrder.toNat + ((1 : BitVec 32) <<< info.pcplqOrder.toNat).setWidth 64)

/-- `ummu_queue_create`; `ummu_get_core_buf` gives no buffer for the size zero. -/
def ummuQueueCreate (kcmdPlbi : Bool) (info : QueueInfo) (env : QueueEnv) :
    Int × QueueCtx × List ResourceEvent :=
  if kcmdPlbi then (0, .zero, [])
  else if env.argsAlloc = false then (-enomem, .zero, [])
  else
    let size := queueBufSize env.getpagesize info
    let queueSize := size * info.ummuCnt.setWidth 64
    match if queueSize = 0 then none else env.queueMap with
    | none => (-enomem, .zero, [.acquire .queueArgs, .release .queueArgs])
    | some startAddr =>
      (0,
       { ummuCnt := info.ummuCnt
         queueSize := queueSize
         cmdQuePiSize := cmdQuePiSize env.getpagesize info.pcmdqOrder
         cplQueSize := cplQueSize env.getpagesize info.pcplqOrder
         queue := (List.range info.ummuCnt.toNat).map (fun i =>
           queueArgsAt env.getpagesize info (startAddr + size * BitVec.ofNat 64 i)) },
       [.acquire .queueArgs, .acquire (.queueBuf startAddr queueSize)])

/-- The buffers and objects that `ummu_queue_destroy` gives back. -/
def ummuQueueDestroy (kcmdPlbi : Bool) (ctx : QueueCtx) : List ResourceEvent :=
  if kcmdPlbi then []
  else
    match ctx.queue with
    | [] => []
    | q :: _ => [.release (.queueBuf q.cmdEntry ctx.queueSize), .release .queueArgs]

/-- `struct ummu_mapt_cmd_entry`. -/
structure CmdEntry where
  opcode : BitVec 8
  cqeEn : Bool
  range : BitVec 6
  addr : BitVec 64
deriving DecidableEq

/-- `struct ummu_mapt_cpl_entry`. -/
structure CplEntry where
  cplStatus : BitVec 4
  cmdqCi : Nat
deriving DecidableEq

def psyncOp : BitVec 8 := 0x01
def plbiAllOp : BitVec 8 := 0x10
def plbiVaOp : BitVec 8 := 0x11
def cplCmdPsyncSucc : BitVec 4 := 1
def cmdNumPerPlbi : Nat := 2

/-- One round of the loop of `ummu_get_cpl_psync`: whether the entry is the expected one, and the
next `ci`. -/
def cplRound (cplQueSize piSync : Nat) (cplEntry : Nat → CplEntry) (ci : Nat) : Bool × Nat :=
  let idxMask := toUint16 (maxCmdQueIndex cplQueSize)
  (decide ((cplEntry (ci &&& idxMask)).cmdqCi = piSync), ummuUpdateQueueIndex cplQueSize ci)

/-- The loop of `ummu_get_cpl_psync`, for at most the given number of rounds. The value is `ret`
and the `ci` that it leaves. -/
def getCplLoop (cplQueSize piSync pi : Nat) (cplEntry : Nat → CplEntry) :
    Nat → Nat → Option (Int × Nat)
  | 0, ci => if pi = ci then some (-eagain, ci) else none
  | rounds + 1, ci =>
    if pi = ci then some (-eagain, ci)
    else
      let r := cplRound cplQueSize piSync cplEntry ci
      if r.1 then some (0, r.2) else getCplLoop cplQueSize piSync pi cplEntry rounds r.2

/-- `ummu_get_cpl_psync` on the registers `ucplq_pi` and `ucplq_ci`, for at most the given number of
rounds: the code it returns and the `ucplq_ci` it leaves. -/
def ummuGetCplPsync (cplQueSize piSync : Nat) (cplEntry : Nat → CplEntry) (ucplqPi ucplqCi : Nat)
    (rounds : Nat) : Option (Int × Nat) :=
  if ucplqPi = ucplqCi then some (-einval, ucplqCi)
  else getCplLoop cplQueSize piSync ucplqPi cplEntry rounds ucplqCi

/-- The loop of `get_minist_log2size_range`; a 64-bit value is shifted out in 64 rounds. -/
def log2sizeLoop : Nat → Nat → Nat → Nat
  | 0, _, idx => idx
  | left + 1, temp, idx => if temp > 0 then log2sizeLoop left (temp >>> 1) (idx + 1) else idx

def getMinistLog2sizeRange (size : Nat) : Nat :=
  log2sizeLoop 64 (if size > 0 then size - 1 else 0) 0

end Ummu
