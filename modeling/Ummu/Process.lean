import Ummu.SerialCalls
import Ummu.Teardown

/-!
# The life of a process

`ummu_init`, the public calls, the handler of `fork` and `ummu_uninit`, with all that the library
takes and gives back in between: the context, its mutex, the map of the tids, the file descriptor of
the driver, and what belongs to each tid.
-/

namespace Ummu

open Lib

/-- What a process takes; `own n` is what its allocation number `n` takes. -/
inductive ProcResource where
  | ctx
  | ctxMutex
  | maptMap
  | sharedFd
  | own (n : Nat) (r : Resource)

def enodev : Int := 19

/-- What the system gives to `ummu_init` and to `child_process_after_fork`: whether the context is
allocated, what `open` returns, whether the map is created. -/
structure CtxEnv where
  ctxAlloc : Bool
  openFd : Int
  mapCreate : Bool

/-- `ummu_ctx_init`: its code, the context that it leaves, what it took and gave back. -/
def ummuCtxInit (env : CtxEnv) : Int × Option UmmuCtx × List (LedgerOp ProcResource) :=
  if env.openFd < 0 then (-enodev, none, [.take .ctxMutex, .give .ctxMutex])
  else if env.mapCreate = false then
    (-enomem, none, [.take .ctxMutex, .take .sharedFd, .give .ctxMutex, .give .sharedFd])
  else
    (0, some ⟨env.openFd, fun _ => none, false⟩,
      [.take .ctxMutex, .take .sharedFd, .take .maptMap])

/-- The end of `ummu_init` and of `child_process_after_fork`. -/
def newCtx (env : CtxEnv) : Option UmmuCtx × List (LedgerOp ProcResource) :=
  if env.ctxAlloc = false then (none, [])
  else
    let r := ummuCtxInit env
    if r.1 ≠ 0 then (none, [.take .ctx] ++ r.2.2 ++ [.give .ctx])
    else (r.2.1, [.take .ctx] ++ r.2.2)

/-- A public call: what it returns, the context that it leaves, what it took and gave back. -/
def Op.onCtx : Op → Option UmmuCtx → Outcome × Option UmmuCtx × List ResourceEvent
  | .api _ (.grant _ _), none => (⟨-einval, none⟩, none, [])
  | .api _ _, none => (⟨-enomem, none⟩, none, [])
  | .api tid call, some ctx =>
    match call.refused, ctx.maptMap tid with
    | some ret, _ => (⟨ret, none⟩, some ctx, [])
    | none, none => (⟨-einval, none⟩, some ctx, [])
    | none, some obj =>
      if obj.info.valid = false then (⟨-einval, none⟩, some ctx, [])
      else
        let r := call.run obj.info
        (⟨r.ret, none⟩,
          some { ctx with
            maptMap := Function.update ctx.maptMap tid (some { obj with info := r.info }) },
          resourceEvents r.trace)
  | .free tid, ctx =>
    let r := ummuFreeTid ctx tid
    (⟨r.1, none⟩, r.2.1, r.2.2)
  | .allocate tidAttr tid env, ctx =>
    let r := ummuAllocateTid ctx tidAttr tid env
    (⟨r.ret, r.tid⟩, r.ctx, r.events)

/-- A process: the global context, and whether `pthread_atfork` has set its handler. The rest is its
history: what it took and gave back since it began, with what it began, the number of allocations
and which of them made the object of a tid, the objects that were destroyed and that a fork left
behind, and the tids that were not put back. -/
structure Process where
  gUmmuCtx : Option UmmuCtx
  forkHandler : Bool
  events : List (LedgerOp ProcResource)
  inherited : Set ProcResource
  count : Nat
  owner : BitVec 32 → Nat
  destroyed : List (Nat × MaptObj)
  forsaken : List (Nat × MaptObj)
  unput : List (Nat × BitVec 32)

/-- `ummu_init`; `atfork` is what `pthread_atfork` returns. -/
def ummuInit (atfork : Int) (env : CtxEnv) : Process :=
  let r := newCtx env
  ⟨r.1, decide (atfork = 0), r.2, ∅, 0, fun _ => 0, [], [], []⟩

def ctxHeld : Set ProcResource := {.ctx, .ctxMutex, .maptMap, .sharedFd}

/-- What is held with the context if `c`, and `P n` of the allocation number `n`. -/
def procHeld (c : Bool) (P : Nat → Set Resource) : Set ProcResource :=
  {r | (c = true ∧ r ∈ ctxHeld) ∨ ∃ n r', r = .own n r' ∧ r' ∈ P n}

def ownOp (n : Nat) (e : ResourceEvent) : LedgerOp ProcResource := e.op.map (.own n)

namespace Process

/-- `ummu_map_get` on the map of the context. -/
def obj (p : Process) (tid : BitVec 32) : Option MaptObj :=
  p.gUmmuCtx.bind (fun ctx => ctx.maptMap tid)

/-- What is held of the allocation number `n`: the tid with its object, what the teardown of the
object missed, what a fork left behind of it, a tid that was not put back. -/
def ownHeld (p : Process) (n : Nat) : Set Resource :=
  {r | (∃ tid obj, p.obj tid = some obj ∧ p.owner tid = n ∧ r ∈ insert (.tid tid) obj.held) ∨
    (∃ obj, (n, obj) ∈ p.destroyed ∧ r ∈ obj.info.blockBase.leaked) ∨
    (∃ obj, (n, obj) ∈ p.forsaken ∧ r ∈ obj.held \ {.maptInfo}) ∨
    ∃ tid, (n, tid) ∈ p.unput ∧ r = .tid tid}

def held (p : Process) : Set ProcResource := procHeld p.gUmmuCtx.isSome p.ownHeld

/-- The allocation that a call is about. -/
def number (p : Process) : Op → Nat
  | .api tid _ => p.owner tid
  | .free tid => p.owner tid
  | .allocate _ _ _ => p.count

/-- The objects of the tids. -/
def objs (p : Process) (order : List (BitVec 32)) : List (Nat × MaptObj) :=
  order.filterMap (fun tid => (p.obj tid).map (Prod.mk (p.owner tid)))

def call (p : Process) (op : Op) : Process :=
  let r := op.onCtx p.gUmmuCtx
  let p' := { p with
    gUmmuCtx := r.2.1
    events := p.events ++ r.2.2.map (ownOp (p.number op)) }
  match op with
  | .api _ _ => p'
  | .free tid => if r.1.ret = 0 then { p' with destroyed := p.destroyed ++ p.objs [tid] } else p'
  | .allocate _ _ _ =>
    { p' with
      count := p.count + 1
      owner :=
        if r.1.ret = 0 then
          r.1.tid.elim p.owner (fun tid => Function.update p.owner tid p.count)
        else p.owner }

/-- `hashmap_clear` visits the tids in the given order; without a destroyer it frees the objects
themselves. -/
def hashmapClear (p : Process) (order : List (BitVec 32))
    (destroyer : Option (MaptObj → List ResourceEvent)) : List (LedgerOp ProcResource) :=
  order.flatMap (fun tid =>
    ((p.obj tid).elim [] (destroyer.getD (fun _ => [.release .maptInfo]))).map
      (ownOp (p.owner tid))) ++ [.give .maptMap]

/-- What `ummu_uninit` and `child_process_after_fork` do with a context. -/
def closeCtx (p : Process) (order : List (BitVec 32))
    (destroyer : Option (MaptObj → List ResourceEvent)) : List (LedgerOp ProcResource) :=
  match p.gUmmuCtx with
  | none => []
  | some ctx =>
    p.hashmapClear order destroyer ++ (if ctx.sharedFd < 0 then [] else [.give .sharedFd]) ++
      [.give .ctxMutex, .give .ctx]

/-- `child_process_after_fork`, in the child. A tid is not copied by a fork, the rest is. -/
def childProcessAfterFork (p : Process) (env : CtxEnv) (order : List (BitVec 32)) : Process :=
  let r := newCtx env
  { p with
    gUmmuCtx := r.1
    inherited := procHeld p.gUmmuCtx.isSome (fun n => {r ∈ p.ownHeld n | r.stage ≠ .driver})
    events := p.closeCtx order none ++ r.2
    forsaken := p.forsaken ++ p.objs order
    unput := [] }

/-- The child of a fork between two calls. -/
def fork (p : Process) (env : CtxEnv) (order : List (BitVec 32)) : Process :=
  if p.forkHandler then p.childProcessAfterFork env order
  else { p with inherited := p.held, events := [] }

/-- `ummu_uninit`. -/
def ummuUninit (p : Process) (order : List (BitVec 32)) : Process :=
  { p with
    gUmmuCtx := none
    events := p.events ++ p.closeCtx order (some ummuMaptDestroy)
    destroyed := p.destroyed ++ p.objs order
    unput := p.unput ++ order.map (fun tid => (p.owner tid, tid)) }

/-- The tids of the map, each once, as an iterator may visit them. -/
def Listing (p : Process) (order : List (BitVec 32)) : Prop :=
  order.Nodup ∧ ∀ tid, tid ∈ order ↔ (p.obj tid).isSome = true

end Process

/-- The block that a new table maps comes without valid nodes. -/
def Op.Mapped : Op → Prop
  | .api _ _ => True
  | .free _ => True
  | .allocate _ _ env => FreshMaps False env.create.maps

/-- A public call, a fork (on the side of the child) or the end of the process. -/
inductive ProcNext (p : Process) : Process → Prop where
  | call (op : Op) (hmapped : op.Mapped) : ProcNext p (p.call op)
  | fork (env : CtxEnv) {order : List (BitVec 32)} (horder : p.Listing order) :
      ProcNext p (p.fork env order)
  | exit {order : List (BitVec 32)} (horder : p.Listing order) : ProcNext p (p.ummuUninit order)

/-- The states of a process and of its descendants. -/
def ProcReach : Process → Prop :=
  Reachable (fun p => ∃ atfork env, p = ummuInit atfork env) ProcNext

end Ummu
