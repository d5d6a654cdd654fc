import Ummu.BitSearch
import Ummu.BlockLedger
import Ummu.Queue
import Ummu.Tid

/-!
# Allocating and freeing a tid

`ummu_allocate_tid` and `ummu_free_tid` with the objects and buffers that they take and give back.
-/

namespace Ummu

open Lib Machine

/-- `struct ummu_mapt_info` with its queues. -/
structure MaptObj where
  info : MaptInfo
  queueCtx : QueueCtx

/-- What the driver fills in of `struct ummu_tid_info`. -/
structure DriverInfo where
  tid : BitVec 32
  hwCap : BitVec 64
  blkExpSize : Nat
  queue : QueueInfo

def DriverInfo.tidInfo (info : DriverInfo) (mode : MaptMode) : TidInfo :=
  ⟨info.tid, mode, info.hwCap, info.blkExpSize⟩

def blockSize4K : Nat := 0x1000

/-- `ummu_mapt_entry_init`: its code, the entry block, what it took and gave back. -/
def entryInit (env : CreateEnv) : Int × Option BlockBase × List ResourceEvent :=
  match env.entryBlock with
  | none => (-enomem, none, [])
  | some n =>
    (0, some (.entryBlock { n with valid := false, nonce := 0 }), [.acquire (.entryBuf blockSize4K)])

/-- `ummu_mapt_table_ctx_init`; after a failed allocation the code is `-errno`. -/
def tableCtxInit (info : TidInfo) (env : CreateEnv) :
    Int × Option BlockBase × List ResourceEvent :=
  if env.tableCtxAlloc = false then (-enomem, none, [])
  else if env.segMngCreate = false then
    (-enomem, none, [.acquire .tableCtx, .release .tableCtx])
  else
    let ctx : TableCtx := ⟨info.hwCap.getLsbD 0, 0, info.blkExpSize, fun _ => 0, fun _ => none⟩
    match ummuAllocLevelBlock .root none ⟨ctx, env.preNode, 0, 0, env.maps, []⟩ with
    | (some _, m) =>
      (0, some (.tableCtx m.ctx (some [])),
        [.acquire .tableCtx, .acquire .segMng] ++ resourceEvents m.trace)
    | (none, m) =>
      (-m.errno, none, [.acquire .tableCtx, .acquire .segMng] ++ resourceEvents m.trace ++
        [.release .segMng, .release .tableCtx])

def modeInit (info : TidInfo) (env : CreateEnv) : Int × Option BlockBase × List ResourceEvent :=
  match info.mode with
  | .entry => entryInit env
  | .table => tableCtxInit info env

/-- `ummu_mapt_create`, which takes an initialisation that returns zero for a success. -/
def createObj (mode : MaptMode) (info : DriverInfo) (env : CreateEnv) (queueEnv : QueueEnv) :
    Option MaptObj × List ResourceEvent :=
  if env.maptInfoAlloc = false then (none, [])
  else
    let kcmdPlbi := info.hwCap.getLsbD 2
    let q := ummuQueueCreate kcmdPlbi info.queue queueEnv
    if q.1 ≠ 0 then (none, [.acquire .maptInfo] ++ q.2.2 ++ [.release .maptInfo])
    else
      let i := modeInit (info.tidInfo mode) env
      if i.1 ≠ 0 then
        (none, [.acquire .maptInfo] ++ q.2.2 ++ i.2.2 ++ ummuQueueDestroy kcmdPlbi q.2.1 ++
          [.release .maptInfo])
      else
        (i.2.1.map (fun base =>
          { info :=
              { tid := info.tid
                valid := true
                doublePlbi := info.hwCap.getLsbD 1
                kcmdPlbi := kcmdPlbi
                blockBase := base }
            queueCtx := q.2.1 }), [.acquire .maptInfo] ++ q.2.2 ++ i.2.2)

/-- One round of the loop of `ummu_mapt_table_ctx_uninit`. -/
def uninitRound (size : Nat) (s : (Nat → Option MaptBlock) × List ResourceEvent) (idx : Nat) :
    (Nat → Option MaptBlock) × List ResourceEvent :=
  let blockId := idx / perMaptLevelBlockCnt
  if idx % perMaptLevelBlockCnt ≠ 0 then s
  else
    match s.1 blockId with
    | none => (Function.update s.1 blockId none, s.2)
    | some block =>
      (Function.update s.1 blockId none,
        s.2 ++ [.release (.tableBuf block.blockId size), .release (.maptBlock block.blockId)])

/-- `ummu_mapt_table_ctx_uninit`; the bitmap has `maxLevelIdSize` bits, as many rounds are enough. -/
def ummuMaptTableCtxUninit (c : TableCtx) (t : Option RangeTable) : List ResourceEvent :=
  let visited := (forEachSetBit c.levelBlockBitmap maxLevelIdSize maxLevelIdSize).getD []
  (if t.isSome then [.release .segMng] else []) ++
    (visited.foldl (uninitRound c.blkExpSize) (c.maptBlockArray, [])).2 ++ [.release .tableCtx]

def ummuMaptEntryUninit : List ResourceEvent := [.release (.entryBuf blockSize4K)]

def modeUninit : BlockBase → List ResourceEvent
  | .entryBlock _ => ummuMaptEntryUninit
  | .tableCtx c t => ummuMaptTableCtxUninit c t

def ummuMaptDestroy (obj : MaptObj) : List ResourceEvent :=
  modeUninit obj.info.blockBase ++ ummuQueueDestroy obj.info.kcmdPlbi obj.queueCtx ++
    [.release .maptInfo]

/-- `struct ummu_ctx_info`; `ctxMutex` tells whether the mutex is held. -/
structure UmmuCtx where
  sharedFd : Int
  maptMap : BitVec 32 → Option MaptObj
  ctxMutex : Bool

def enoent : Int := 2

/-- What the system gives to `ummu_allocate_tid`: the code of the driver and what it fills in. -/
structure AllocateEnv where
  ioctl : Int
  info : DriverInfo
  create : CreateEnv
  queue : QueueEnv

/-- The outcome of `ummu_allocate_tid`; `tid` is what the pointer of the caller points to. -/
structure AllocateResult where
  ret : Int
  ctx : Option UmmuCtx
  tid : Option (BitVec 32)
  events : List ResourceEvent

/-- The modes that `ummu_check_mode` lets through. -/
def checkedMode (mode : BitVec 32) : Option MaptMode :=
  if mode = 0 then some .table else if mode = 1 then some .entry else none

def ummuGetTid (fd ioctl : Int) : Int := if fd < 0 then -enoent else ioctl

def ummuPutTid (fd : Int) (tid : BitVec 32) : List ResourceEvent :=
  if fd < 0 then [] else [.release (.tid tid)]

def ummuMapInsert (map : BitVec 32 → Option MaptObj) (key : BitVec 32) (obj : MaptObj) :
    Int × (BitVec 32 → Option MaptObj) :=
  match map key with
  | none => (0, Function.update map key (some obj))
  | some _ => (-1, map)

/-- `ummu_allocate_tid`; a null pointer is `none`. -/
def ummuAllocateTid (ctx : Option UmmuCtx) (tidAttr tid : Option (BitVec 32)) (env : AllocateEnv) :
    AllocateResult :=
  match ctx, tidAttr.bind checkedMode, tid with
  | some ctx, some mode, some _ =>
    let ctx := { ctx with ctxMutex := true }
    let ret := ummuGetTid ctx.sharedFd env.ioctl
    if ret ≠ 0 then ⟨ret, some { ctx with ctxMutex := false }, tid, []⟩
    else
      match createObj mode env.info env.create env.queue with
      | (none, es) =>
        ⟨-enomem, some { ctx with ctxMutex := false }, tid,
          [.acquire (.tid env.info.tid)] ++ es ++ ummuPutTid ctx.sharedFd env.info.tid⟩
      | (some obj, es) =>
        let r := ummuMapInsert ctx.maptMap env.info.tid obj
        if r.1 ≠ 0 then
          ⟨r.1, some { ctx with maptMap := r.2, ctxMutex := false }, tid,
            [.acquire (.tid env.info.tid)] ++ es ++ ummuMaptDestroy obj ++ ummuPutTid ctx.sharedFd env.info.tid⟩
        else
          ⟨0, some { ctx with maptMap := r.2, ctxMutex := false }, some env.info.tid,
            [.acquire (.tid env.info.tid)] ++ es⟩
  | ctx, _, tid => ⟨-einval, ctx, tid, []⟩

/-- `ummu_free_tid`: its code, the context it leaves, what it gave back. -/
def ummuFreeTid (ctx : Option UmmuCtx) (tid : BitVec 32) :
    Int × Option UmmuCtx × List ResourceEvent :=
  match ctx with
  | none => (-einval, none, [])
  | some ctx =>
    match ctx.maptMap tid with
    | none => (-einval, some ctx, [])
    | some obj =>
      if obj.info.valid = false then (-einval, some ctx, [])
      else
        (0, some { ctx with maptMap := Function.update ctx.maptMap tid none },
          ummuMaptDestroy obj ++ ummuPutTid ctx.sharedFd tid)

end Ummu
