import Ummu.Threads

/-!
# Calls made one after another

What a call comes to when no other one is under way, and what is left of a call that has begun.
-/

namespace Ummu

open Lib

/-- The tids between two calls; `plbi` are the calls of `ummu_plbi_va_cmd` on the queues of each. -/
structure SerialState where
  ctx : UmmuCtx
  plbi : BitVec 32 → List PlbiRange

/-- A call that is made while no other one is under way. -/
def Op.exec : Op → SerialState → Outcome × SerialState
  | .api tid call, c =>
    match call.refused, c.ctx.maptMap tid with
    | some ret, _ => (⟨ret, none⟩, c)
    | none, none => (⟨-einval, none⟩, c)
    | none, some obj =>
      if obj.info.valid = false then (⟨-einval, none⟩, c)
      else
        let r := call.run obj.info
        (⟨r.ret, none⟩,
          { ctx := { c.ctx with
              maptMap := Function.update c.ctx.maptMap tid (some { obj with info := r.info }) }
            plbi := Function.update c.plbi tid (c.plbi tid ++ r.plbi) })
  | .free tid, c =>
    let r := ummuFreeTid (some c.ctx) tid
    (⟨r.1, none⟩, { c with ctx := r.2.1.getD c.ctx })
  | .allocate tidAttr tid env, c =>
    let r := ummuAllocateTid (some c.ctx) tidAttr tid env
    (⟨r.ret, r.tid⟩,
      { ctx := r.ctx.getD c.ctx
        plbi := if r.ret = 0 then Function.update c.plbi env.info.tid [] else c.plbi })

/-- The driver hands out a tid that is not in use. -/
def Op.DriverOk (op : Op) (c : SerialState) : Prop :=
  match op with
  | .allocate _ _ env =>
    op.refused = none → ummuGetTid c.ctx.sharedFd env.ioctl = 0 →
      c.ctx.maptMap env.info.tid = none
  | _ => True

section Finish

variable {τ : Type} {call : ApiCall} {c c' : Cell τ}

/-- What a call does on its object after `ctx_mutex` is given back. -/
def Tail.finish (call : ApiCall) : Tail → Cell τ → Int × Cell τ
  | .update d lvl, c =>
    let u := call.update c.obj.info d
    (u.1, { c with
      obj := { c.obj with info := u.2 }, plbi := c.plbi ++ (call.range d lvl).toList })
  | .plbi range ret, c => (ret, { c with plbi := c.plbi ++ [range] })
  | .unlock ret, c => (ret, c)

/-- What a call still does on its object. -/
def Phase.finish (call : ApiCall) : Phase → Cell τ → Int × Cell τ
  | .check, c =>
    match call.check c.obj.info with
    | none => (-einval, c)
    | some d => afterCheck call d c
  | .imp d, c => afterCheck call d c
  | .unlockCtx k, c => k.finish call c
  | .tail k, c => k.finish call c
where
  afterCheck (call : ApiCall) (d : DataInfo) (c : Cell τ) : Int × Cell τ :=
    let i := call.imp c.obj.info d
    (if i.ret = 0 then Tail.update d i.lvl else .last call d i.lvl i.ret).finish call
      { c with obj := { c.obj with info := i.info }, plbi := c.plbi ++ i.plbi }

lemma last_finish (d : DataInfo) (lvl : Nat) (ret : Int) :
    (Tail.last call d lvl ret).finish call c =
      (ret, { c with plbi := c.plbi ++ (call.range d lvl).toList }) := by
  rw [Tail.last]
  cases call.range d lvl with
  | none => simp only [Tail.finish, Option.toList_none, List.append_nil]
  | some range => rfl

/-- An action leaves what the call will come to. -/
lemma Phase.act_finish {p p' : Phase} (h : p.act call c = some (p', c')) :
    p'.finish call c' = p.finish call c := by
  cases p with
  | check =>
    simp only [Phase.act] at h
    cases hcheck : call.check c.obj.info with
    | none =>
      rw [hcheck] at h
      obtain ⟨rfl, rfl⟩ := Prod.mk.inj (Option.some.inj h)
      rw [Phase.finish.eq_1, hcheck]
      rfl
    | some d =>
      rw [hcheck] at h
      obtain ⟨rfl, rfl⟩ := Prod.mk.inj (Option.some.inj h)
      rw [Phase.finish.eq_1, hcheck]
      rfl
  | imp d =>
    obtain ⟨rfl, rfl⟩ := Prod.mk.inj (Option.some.inj h)
    rfl
  | unlockCtx k => cases h
  | tail k =>
    cases k with
    | update d lvl =>
      obtain ⟨rfl, rfl⟩ := Prod.mk.inj (Option.some.inj h)
      exact last_finish d lvl _
    | plbi range ret =>
      obtain ⟨rfl, rfl⟩ := Prod.mk.inj (Option.some.inj h)
      rfl
    | unlock ret => cases h

/-- A call that starts on its object comes to what the call made alone comes to. -/
lemma finish_check (hcall : call.refused = none) :
    Phase.check.finish call c = ((call.run c.obj.info).ret,
      { c with
        obj := { c.obj with info := (call.run c.obj.info).info }
        plbi := c.plbi ++ (call.run c.obj.info).plbi }) := by
  have hsteps := @ApiCall.run_steps c.obj.info call hcall
  have hret := congrArg (fun r => r.1) hsteps
  have hinfo := congrArg (fun r => r.2.1) hsteps
  have hplbi := congrArg (fun r => r.2.2) hsteps
  simp only [CallResult.outcome] at hret hinfo hplbi
  rw [hret, hinfo, hplbi]
  cases hcheck : call.check c.obj.info with
  | none =>
    rw [ApiCall.steps_none hcheck, Phase.finish, hcheck]
    simp only [List.append_nil]
  | some d =>
    rw [Phase.finish, hcheck]
    simp only [Phase.finish.afterCheck]
    by_cases hret : (call.imp c.obj.info d).ret = 0
    · rw [ApiCall.steps_done hcheck hret, if_pos hret]
      simp only [Tail.finish, List.append_assoc]
    · rw [ApiCall.steps_failed hcheck hret, if_neg hret, last_finish]
      simp only [List.append_assoc]

end Finish

/-- A tid that is there, with the invalidations on its queues. -/
def SerialState.view (c : SerialState) (tid : BitVec 32) : Option (MaptObj × List PlbiRange) :=
  (c.ctx.maptMap tid).map (fun obj => (obj, c.plbi tid))

section Exec

variable {c : SerialState} {tid : BitVec 32} {call : ApiCall}

lemma exec_refused {op : Op} {out : Outcome} (h : op.refused = some out) : op.exec c = (out, c) := by
  cases op with
  | api tid call =>
    obtain ⟨ret, hret, rfl⟩ := Option.map_eq_some_iff.mp h
    simp only [Op.exec, hret]
  | free tid => cases h
  | allocate tidAttr tid env =>
    have heinval : (-einval : Int) ≠ 0 := by decide
    have hallocate : ummuAllocateTid (some c.ctx) tidAttr tid env = ⟨-einval, some c.ctx, tid, []⟩ := by
      unfold ummuAllocateTid
      simp only [Op.refused] at h
      cases hmode : tidAttr.bind checkedMode with
      | none => rfl
      | some mode =>
        cases tid with
        | none => rfl
        | some p =>
          rw [hmode, if_neg (by simp)] at h
          cases h
    have hout : out = ⟨-einval, tid⟩ := by
      simp only [Op.refused] at h
      split_ifs at h
      exact (Option.some.inj h).symm
    simp only [Op.exec, hallocate, hout, if_neg heinval]
    rfl

/-- The tid is not there. -/
lemma exec_miss (hcall : call.refused = none) (h : c.view tid = none) :
    (Op.api tid call).exec c = (⟨-einval, none⟩, c) := by
  have hnone : c.ctx.maptMap tid = none := Option.map_eq_none_iff.mp h
  simp only [Op.exec, hcall, hnone]

lemma exec_free_miss (h : c.view tid = none) :
    (Op.free tid).exec c = (⟨-einval, none⟩, c) := by
  have hnone : c.ctx.maptMap tid = none := Option.map_eq_none_iff.mp h
  simp only [Op.exec, ummuFreeTid, hnone]
  rfl

lemma view_some {x : MaptObj × List PlbiRange} (h : c.view tid = some x) :
    c.ctx.maptMap tid = some x.1 ∧ c.plbi tid = x.2 := by
  obtain ⟨obj, hobj, rfl⟩ := Option.map_eq_some_iff.mp h
  exact ⟨hobj, rfl⟩

/-- A call on a tid that is there. -/
lemma exec_api {x : MaptObj × List PlbiRange} (hcall : call.refused = none)
    (h : c.view tid = some x) (hvalid : x.1.info.valid = true) :
    ((Op.api tid call).exec c).1 = ⟨(call.run x.1.info).ret, none⟩ ∧
      ((Op.api tid call).exec c).2.ctx.sharedFd = c.ctx.sharedFd ∧
      ((Op.api tid call).exec c).2.view = Function.update c.view tid
        (some ({ x.1 with info := (call.run x.1.info).info }, x.2 ++ (call.run x.1.info).plbi)) := by
  obtain ⟨hobj, hplbi⟩ := view_some h
  have hv : ¬x.1.info.valid = false := by
    rw [hvalid]
    exact Bool.false_ne_true.symm
  simp only [Op.exec, hcall, hobj, if_neg hv, true_and]
  funext tid'
  by_cases htid : tid' = tid
  · subst htid
    simp only [SerialState.view, Function.update_self, Option.map_some, hplbi]
  · simp only [SerialState.view, Function.update_of_ne htid]

/-- A tid that is there is freed. -/
lemma exec_free {x : MaptObj × List PlbiRange} (h : c.view tid = some x)
    (hvalid : x.1.info.valid = true) :
    ((Op.free tid).exec c).1 = ⟨0, none⟩ ∧
      ((Op.free tid).exec c).2.ctx.sharedFd = c.ctx.sharedFd ∧
      ((Op.free tid).exec c).2.view = Function.update c.view tid none := by
  obtain ⟨hobj, _⟩ := view_some h
  have hv : ¬x.1.info.valid = false := by
    rw [hvalid]
    exact Bool.false_ne_true.symm
  simp only [Op.exec, ummuFreeTid, hobj, if_neg hv, Option.getD_some, true_and]
  funext tid'
  by_cases htid : tid' = tid
  · subst htid
    simp only [SerialState.view, Function.update_self, Option.map_none]
  · simp only [SerialState.view, Function.update_of_ne htid]

section Allocate

variable {tidAttr out : Option (BitVec 32)} {mode : MaptMode} {env : AllocateEnv}

lemma exec_getTidFailed (hcall : (Call.allocate tidAttr out mode).Checked)
    (hret : ummuGetTid c.ctx.sharedFd env.ioctl ≠ 0) :
    ((Op.allocate tidAttr out env).exec c).1 = ⟨ummuGetTid c.ctx.sharedFd env.ioctl, out⟩ ∧
      ((Op.allocate tidAttr out env).exec c).2.ctx.sharedFd = c.ctx.sharedFd ∧
      ((Op.allocate tidAttr out env).exec c).2.view = c.view := by
  obtain ⟨hmode, hout⟩ := hcall
  obtain ⟨p, rfl⟩ := Option.ne_none_iff_exists'.mp hout
  simp only [Op.exec, ummuAllocateTid, hmode, if_pos hret, if_neg hret, true_and]
  exact ⟨rfl, rfl⟩

lemma exec_createFailed (hcall : (Call.allocate tidAttr out mode).Checked)
    (hret : ummuGetTid c.ctx.sharedFd env.ioctl = 0)
    (hobj : (createObj mode env.info env.create env.queue).1 = none) :
    ((Op.allocate tidAttr out env).exec c).1 = ⟨-enomem, out⟩ ∧
      ((Op.allocate tidAttr out env).exec c).2.ctx.sharedFd = c.ctx.sharedFd ∧
      ((Op.allocate tidAttr out env).exec c).2.view = c.view := by
  obtain ⟨hmode, hout⟩ := hcall
  obtain ⟨p, rfl⟩ := Option.ne_none_iff_exists'.mp hout
  have henomem : (-enomem : Int) ≠ 0 := by decide
  generalize hcreate : createObj mode env.info env.create env.queue = r at hobj
  obtain ⟨obj, es⟩ := r
  simp only at hobj
  subst hobj
  simp only [Op.exec, ummuAllocateTid, hmode, hret, ne_eq, not_true_eq_false, if_false, hcreate,
    if_neg henomem, true_and]
  exact ⟨rfl, rfl⟩

lemma exec_insert {obj : MaptObj} (hcall : (Call.allocate tidAttr out mode).Checked)
    (hret : ummuGetTid c.ctx.sharedFd env.ioctl = 0)
    (hobj : (createObj mode env.info env.create env.queue).1 = some obj)
    (hnew : c.view env.info.tid = none) :
    ((Op.allocate tidAttr out env).exec c).1 = ⟨0, some env.info.tid⟩ ∧
      ((Op.allocate tidAttr out env).exec c).2.ctx.sharedFd = c.ctx.sharedFd ∧
      ((Op.allocate tidAttr out env).exec c).2.view =
        Function.update c.view env.info.tid (some (obj, [])) := by
  obtain ⟨hmode, hout⟩ := hcall
  obtain ⟨p, rfl⟩ := Option.ne_none_iff_exists'.mp hout
  have hnone : c.ctx.maptMap env.info.tid = none := Option.map_eq_none_iff.mp hnew
  generalize hcreate : createObj mode env.info env.create env.queue = r at hobj
  obtain ⟨o, es⟩ := r
  simp only at hobj
  subst hobj
  simp only [Op.exec, ummuAllocateTid, hmode, hret, ne_eq, not_true_eq_false, if_false, hcreate,
    ummuMapInsert, hnone, Option.getD_some, if_true, true_and]
  funext tid'
  by_cases htid : tid' = env.info.tid
  · simp only [SerialState.view, htid, Function.update_self, Option.map_some]
  · simp only [SerialState.view, Function.update_of_ne htid]

end Allocate

end Exec

/-- Every allocation succeeds, and the tid is invalidated by the kernel. -/
def entryDriver : AllocateEnv where
  ioctl := 0
  info := ⟨1, 5, blockSize2M, ⟨0, 0, 1⟩⟩
  create := ⟨true, true, some EntryNode.zero, true, true, .zero, []⟩
  queue := ⟨0x1000, true, some 0x10000⟩

def allocateEntry : Op := .allocate (some 1) (some 7) entryDriver

end Ummu
