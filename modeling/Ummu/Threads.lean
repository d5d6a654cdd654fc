import Ummu.CallSteps
import Ummu.Lifetime
import Ummu.Lib.Serial

/-!
# Threads that call the API

The public calls as the actions that they take on `ctx_mutex`, on the mutex of a tid, on the map of
the tids and on the object of a tid. The actions of the threads follow each other in any order.
-/

namespace Ummu

open Lib

/-- A public call that has passed the checks before the first mutex. -/
inductive Call where
  | api (tid : BitVec 32) (call : ApiCall)
  | free (tid : BitVec 32)
  | allocate (tidAttr tid : Option (BitVec 32)) (mode : MaptMode)

def Call.Checked : Call → Prop
  | .api _ call => call.refused = none
  | .free _ => True
  | .allocate tidAttr tid mode => tidAttr.bind checkedMode = some mode ∧ tid ≠ none

/-- A public call with what the system gave to it. -/
inductive Op where
  | api (tid : BitVec 32) (call : ApiCall)
  | free (tid : BitVec 32)
  | allocate (tidAttr tid : Option (BitVec 32)) (env : AllocateEnv)

/-- What a call returns; `tid` is what the pointer of `ummu_allocate_tid` points to then. -/
structure Outcome where
  ret : Int
  tid : Option (BitVec 32)

/-- What a call returns that takes no mutex. -/
def Op.refused : Op → Option Outcome
  | .api _ call => call.refused.map (fun ret => ⟨ret, none⟩)
  | .free _ => none
  | .allocate tidAttr tid _ =>
    if (tidAttr.bind checkedMode).isNone ∨ tid.isNone then some ⟨-einval, tid⟩ else none

/-- A `struct ummu_mapt_info` in memory; `plbi` are the calls of `ummu_plbi_va_cmd` on its queues,
`maptMutex` the thread that holds its mutex. -/
structure Cell (τ : Type) where
  obj : MaptObj
  plbi : List PlbiRange
  maptMutex : Option τ

/-- A place where an object may be allocated, once. -/
inductive Slot (τ : Type) where
  | fresh
  | live (c : Cell τ)
  | released

/-- What is left of a call once `ctx_mutex` is given back. -/
inductive Tail where
  | update (d : DataInfo) (lvl : Nat)
  | plbi (range : PlbiRange) (ret : Int)
  | unlock (ret : Int)

/-- Where a call stands that holds the mutex of its tid. -/
inductive Phase where
  | check
  | imp (d : DataInfo)
  | unlockCtx (k : Tail)
  | tail (k : Tail)

/-- What follows on the update of the range table. -/
def Tail.last (call : ApiCall) (d : DataInfo) (lvl : Nat) (ret : Int) : Tail :=
  match call.range d lvl with
  | none => .unlock ret
  | some range => .plbi range ret

section Object

variable {τ : Type}

/-- An action on the object of the tid, and the place after it. -/
def Phase.act (call : ApiCall) : Phase → Cell τ → Option (Phase × Cell τ)
  | .check, c =>
    match call.check c.obj.info with
    | none => some (.unlockCtx (.unlock (-einval)), c)
    | some d => some (.imp d, c)
  | .imp d, c =>
    let i := call.imp c.obj.info d
    some (.unlockCtx (if i.ret = 0 then .update d i.lvl else .last call d i.lvl i.ret),
      { c with obj := { c.obj with info := i.info }, plbi := c.plbi ++ i.plbi })
  | .tail (.update d lvl), c =>
    let u := call.update c.obj.info d
    some (.tail (.last call d lvl u.1), { c with obj := { c.obj with info := u.2 } })
  | .tail (.plbi range ret), c =>
    some (.tail (.unlock ret), { c with plbi := c.plbi ++ [range] })
  | .unlockCtx _, _ => none
  | .tail (.unlock _), _ => none

end Object

/-- Where a thread stands: before the action that the name says. -/
inductive Pc where
  | idle
  | lockCtx (c : Call)
  | lookup (tid : BitVec 32) (call : ApiCall)
  | lockMapt (tid : BitVec 32) (call : ApiCall) (o : Nat)
  | inside (tid : BitVec 32) (call : ApiCall) (o : Nat) (p : Phase)
  | freeLookup (tid : BitVec 32)
  | freeLock (tid : BitVec 32) (o : Nat)
  | mapDel (tid : BitVec 32) (o : Nat)
  | freeUnlock (tid : BitVec 32) (o : Nat)
  | getTid (tidAttr tid : Option (BitVec 32)) (mode : MaptMode)
  | create (tidAttr tid : Option (BitVec 32)) (mode : MaptMode) (env : AllocateEnv)
  | insert (tidAttr tid : Option (BitVec 32)) (env : AllocateEnv) (o : Nat)
  | destroy (tid : BitVec 32) (o : Nat) (op : Op) (out : Outcome)
  | putTid (tid : BitVec 32) (op : Op) (out : Outcome)
  | unlockCtx (op : Op) (out : Outcome)

/-- The program with its threads. `ctxMutex` is the thread that holds the mutex, `inUse` are the
tids that the driver has handed out, `returned` is what the calls of a thread have returned. -/
structure State (τ : Type) where
  sharedFd : Int
  ctxMutex : Option τ
  maptMap : BitVec 32 → Option Nat
  heap : Nat → Slot τ
  inUse : Set (BitVec 32)
  pc : τ → Pc
  returned : τ → List (Op × Outcome)

section Threads

variable {τ : Type}

namespace State

def write (s : State τ) (o : Nat) (x : Slot τ) : State τ :=
  { s with heap := Function.update s.heap o x }

def setMap (s : State τ) (tid : BitVec 32) (o : Option Nat) : State τ :=
  { s with maptMap := Function.update s.maptMap tid o }

def lock (s : State τ) (t : Option τ) : State τ := { s with ctxMutex := t }

def use (s : State τ) (tids : Set (BitVec 32)) : State τ := { s with inUse := tids }

def goto [DecidableEq τ] (s : State τ) (t : τ) (p : Pc) : State τ :=
  { s with pc := Function.update s.pc t p }

/-- A call of the thread returns. -/
def ret [DecidableEq τ] (s : State τ) (t : τ) (op : Op) (out : Outcome) : State τ :=
  { s with returned := Function.update s.returned t (s.returned t ++ [(op, out)]) }.goto t .idle

/-- `get_mapt_info_by_tid` finds nothing, nor does the check of `ummu_free_tid`. -/
def Missing (s : State τ) (tid : BitVec 32) : Prop :=
  s.maptMap tid = none ∨
    ∃ o c, s.maptMap tid = some o ∧ s.heap o = .live c ∧ c.obj.info.valid = false

def Found (s : State τ) (tid : BitVec 32) (o : Nat) : Prop :=
  s.maptMap tid = some o ∧ ∃ c, s.heap o = .live c ∧ c.obj.info.valid = true

end State

/-- The first action of a call under `ctx_mutex`. -/
def Call.enter : Call → Pc
  | .api tid call => .lookup tid call
  | .free tid => .freeLookup tid
  | .allocate tidAttr tid mode => .getTid tidAttr tid mode

/-- An action of the thread `t`. -/
inductive Step [DecidableEq τ] (t : τ) (s : State τ) : State τ → Prop where
  | refuse {op : Op} {out : Outcome} (hpc : s.pc t = .idle) (h : op.refused = some out) :
      Step t s (s.ret t op out)
  | call {c : Call} (hpc : s.pc t = .idle) (h : c.Checked) :
      Step t s (s.goto t (.lockCtx c))
  | lockCtx {c : Call} (hpc : s.pc t = .lockCtx c) (hfree : s.ctxMutex = none) :
      Step t s ((s.lock (some t)).goto t c.enter)
  | unlockCtx {op : Op} {out : Outcome} (hpc : s.pc t = .unlockCtx op out) :
      Step t s ((s.lock none).ret t op out)
  -- `ummu_grant` and `ummu_ungrant_data`
  | miss {tid : BitVec 32} {call : ApiCall} (hpc : s.pc t = .lookup tid call)
      (h : s.Missing tid) : Step t s (s.goto t (.unlockCtx (.api tid call) ⟨-einval, none⟩))
  | lookup {tid : BitVec 32} {call : ApiCall} {o : Nat} (hpc : s.pc t = .lookup tid call)
      (h : s.Found tid o) : Step t s (s.goto t (.lockMapt tid call o))
  | lockMapt {tid : BitVec 32} {call : ApiCall} {o : Nat} {c : Cell τ}
      (hpc : s.pc t = .lockMapt tid call o) (hc : s.heap o = .live c)
      (hfree : c.maptMutex = none) :
      Step t s ((s.write o (.live { c with maptMutex := some t })).goto t
        (.inside tid call o .check))
  | act {tid : BitVec 32} {call : ApiCall} {o : Nat} {p p' : Phase} {c c' : Cell τ}
      (hpc : s.pc t = .inside tid call o p) (hc : s.heap o = .live c)
      (h : p.act call c = some (p', c')) :
      Step t s ((s.write o (.live c')).goto t (.inside tid call o p'))
  | release {tid : BitVec 32} {call : ApiCall} {o : Nat} {k : Tail}
      (hpc : s.pc t = .inside tid call o (.unlockCtx k)) :
      Step t s ((s.lock none).goto t (.inside tid call o (.tail k)))
  | unlockMapt {tid : BitVec 32} {call : ApiCall} {o : Nat} {ret : Int} {c : Cell τ}
      (hpc : s.pc t = .inside tid call o (.tail (.unlock ret))) (hc : s.heap o = .live c) :
      Step t s ((s.write o (.live { c with maptMutex := none })).ret t (.api tid call)
        ⟨ret, none⟩)
  -- `ummu_free_tid`
  | freeMiss {tid : BitVec 32} (hpc : s.pc t = .freeLookup tid) (h : s.Missing tid) :
      Step t s (s.goto t (.unlockCtx (.free tid) ⟨-einval, none⟩))
  | freeLookup {tid : BitVec 32} {o : Nat} (hpc : s.pc t = .freeLookup tid)
      (h : s.Found tid o) : Step t s (s.goto t (.freeLock tid o))
  | freeLock {tid : BitVec 32} {o : Nat} {c : Cell τ} (hpc : s.pc t = .freeLock tid o)
      (hc : s.heap o = .live c) (hfree : c.maptMutex = none) :
      Step t s ((s.write o (.live { c with maptMutex := some t })).goto t (.mapDel tid o))
  | mapDel {tid : BitVec 32} {o : Nat} (hpc : s.pc t = .mapDel tid o) :
      Step t s ((s.setMap tid none).goto t (.freeUnlock tid o))
  | freeUnlock {tid : BitVec 32} {o : Nat} {c : Cell τ} (hpc : s.pc t = .freeUnlock tid o)
      (hc : s.heap o = .live c) :
      Step t s ((s.write o (.live { c with maptMutex := none })).goto t
        (.destroy tid o (.free tid) ⟨0, none⟩))
  -- `ummu_allocate_tid`; the driver hands out a tid that is not in use
  | getTidFailed {tidAttr tid : Option (BitVec 32)} {mode : MaptMode} (env : AllocateEnv)
      (hpc : s.pc t = .getTid tidAttr tid mode) (h : ummuGetTid s.sharedFd env.ioctl ≠ 0) :
      Step t s (s.goto t (.unlockCtx (.allocate tidAttr tid env)
        ⟨ummuGetTid s.sharedFd env.ioctl, tid⟩))
  | getTid {tidAttr tid : Option (BitVec 32)} {mode : MaptMode} (env : AllocateEnv)
      (hpc : s.pc t = .getTid tidAttr tid mode) (h : ummuGetTid s.sharedFd env.ioctl = 0)
      (hnew : env.info.tid ∉ s.inUse) :
      Step t s ((s.use (insert env.info.tid s.inUse)).goto t (.create tidAttr tid mode env))
  | createFailed {tidAttr tid : Option (BitVec 32)} {mode : MaptMode} {env : AllocateEnv}
      (hpc : s.pc t = .create tidAttr tid mode env)
      (h : (createObj mode env.info env.create env.queue).1 = none) :
      Step t s (s.goto t (.putTid env.info.tid (.allocate tidAttr tid env) ⟨-enomem, tid⟩))
  | create {tidAttr tid : Option (BitVec 32)} {mode : MaptMode} {env : AllocateEnv} {obj : MaptObj}
      {o : Nat} (hpc : s.pc t = .create tidAttr tid mode env)
      (h : (createObj mode env.info env.create env.queue).1 = some obj) (hnew : s.heap o = .fresh) :
      Step t s ((s.write o (.live ⟨obj, [], none⟩)).goto t (.insert tidAttr tid env o))
  | insertFailed {tidAttr tid : Option (BitVec 32)} {env : AllocateEnv} {o : Nat}
      (hpc : s.pc t = .insert tidAttr tid env o) (h : s.maptMap env.info.tid ≠ none) :
      Step t s (s.goto t (.destroy env.info.tid o (.allocate tidAttr tid env) ⟨-1, tid⟩))
  | insert {tidAttr tid : Option (BitVec 32)} {env : AllocateEnv} {o : Nat}
      (hpc : s.pc t = .insert tidAttr tid env o) (h : s.maptMap env.info.tid = none) :
      Step t s ((s.setMap env.info.tid (some o)).goto t
        (.unlockCtx (.allocate tidAttr tid env) ⟨0, some env.info.tid⟩))
  -- the end of `ummu_free_tid` and of a failed `ummu_allocate_tid`
  | destroy {tid : BitVec 32} {o : Nat} {op : Op} {out : Outcome} {c : Cell τ}
      (hpc : s.pc t = .destroy tid o op out) (hc : s.heap o = .live c) :
      Step t s ((s.write o .released).goto t (.putTid tid op out))
  | putTid {tid : BitVec 32} {op : Op} {out : Outcome} {tids : Set (BitVec 32)}
      (hpc : s.pc t = .putTid tid op out) (h : tids = s.inUse \ {tid} ∨ tids = s.inUse) :
      Step t s ((s.use tids).goto t (.unlockCtx op out))

/-- The program before the first call. -/
def Start (fd : Int) (s : State τ) : Prop :=
  s.sharedFd = fd ∧ s.ctxMutex = none ∧ (∀ tid, s.maptMap tid = none) ∧
    (∀ o, s.heap o = .fresh) ∧ (∀ t, s.pc t = .idle) ∧ ∀ t, s.returned t = []

/-- The states that the threads reach by interleaved actions. -/
def ThreadReach [DecidableEq τ] (fd : Int) : State τ → Prop :=
  Reachable (Start fd) (fun s s' => ∃ t, Step t s s')

end Threads

end Ummu
