import Ummu.Tid

/-!
# The steps of a call

The parts of `ummu_grant` and `ummu_ungrant_data` between which the mutexes are taken and given
back: the checks, the change of the table, the update of the range table, the invalidation.
-/

namespace Ummu

/-- `ummu_grant_check`. -/
def ummuGrantCheck (info : MaptInfo) (d : DataInfo) : GrantOpType :=
  match info.blockBase with
  | .entryBlock node => ummuEntryParamCheck node d
  | .tableCtx _ t => ummuTableGrantCheck t d

/-- `ummu_ungrant_check`. -/
def ummuUngrantCheck (info : MaptInfo) (d : DataInfo) : GrantOpType :=
  match info.blockBase with
  | .entryBlock node => ummuEntryUngrantParamCheck node d
  | .tableCtx _ t => ummuTableUngrantCheck t d

/-- What changes the table leaves: its code, the tid, `lvl` and the invalidations it asked for. -/
structure ImpResult where
  ret : Int
  info : MaptInfo
  lvl : Nat
  plbi : List PlbiRange

/-- `ummu_ungrant_imp`; `ummu_grant_imp` has it inlined. -/
def ummuUngrantImp (info : MaptInfo) (d : DataInfo) (maps : List MapOutcome) (lvl : Nat) :
    ImpResult :=
  match info.blockBase with
  | .entryBlock node =>
    let r := ummuEntryOp node d
    ⟨r.1, { info with blockBase := .entryBlock r.2 }, lvl, []⟩
  | .tableCtx ctx t =>
    let r := ummuTableOp d (startMachine ctx maps lvl)
    ⟨r.1, { info with blockBase := .tableCtx r.2.ctx t }, r.2.lvl, []⟩

/-- `ummu_grant_imp`, which invalidates after an added token and after a failure. -/
def ummuGrantImp (info : MaptInfo) (d : DataInfo) (env : GrantEnv) : ImpResult :=
  let r := ummuUngrantImp info d env.maps env.lvl
  { r with plbi := if d.op = .addToken ∨ r.ret ≠ 0 then [⟨d.dataBase, d.dataSize⟩] else [] }

/-- `ummu_update_info`. -/
def MaptInfo.updateInfo (info : MaptInfo) (recordAlloc : Bool) (d : DataInfo) : Int × MaptInfo :=
  match info.blockBase with
  | .entryBlock _ => (0, info)
  | .tableCtx ctx t =>
    let u := ummuUpdateInfo recordAlloc t d
    (u.1, { info with blockBase := .tableCtx ctx u.2 })

/-- The checks of `ummu_ungrant_data` under the mutexes. -/
def ungrantChecked (info : MaptInfo) (data size : BitVec 64) (tokenval : BitVec 32)
    (bytoken : Bool) : Option DataInfo :=
  let d := ungrantDataInfo data size tokenval bytoken
  if info.mode = .table ∧ alignVpageShiftCheck data = false then none
  else if ummuUngrantCheck info d = .opEnd then none
  else some { d with op := ummuUngrantCheck info d }

/-- The checks of `ummu_grant` under the mutexes. -/
def grantChecked (info : MaptInfo) (a : GrantArgs) (random : Option (BitVec 32)) :
    Option DataInfo :=
  a.segAttr.bind (fun seg =>
    if ummuCheckData a.data a.dataSize a.perm seg.eBit info.mode = false then none
    else
      (ummuPermDataPreproc a seg random).bind (fun d =>
        if ummuGrantCheck info d = .opEnd then none
        else some { d with op := ummuGrantCheck info d }))

namespace ApiCall

/-- The code of a call that returns before it takes a mutex. -/
def refused : ApiCall → Option Int
  | .grant a _ => if a.segAttr.isNone then some (-einval) else none
  | .ungrant _ size => if size = 0 then some (-enomem) else none
  | .ungrantByToken _ size _ => if size = 0 then some (-enomem) else none

/-- The checks that decide about `data_info.op`; a call that fails here returns `-EINVAL`. -/
def check (info : MaptInfo) : ApiCall → Option DataInfo
  | .grant a env => grantChecked info a env.random
  | .ungrant data size => ungrantChecked info data size 0 false
  | .ungrantByToken data size tokenVal => ungrantChecked info data size tokenVal true

def imp (info : MaptInfo) (d : DataInfo) : ApiCall → ImpResult
  | .grant _ env => ummuGrantImp info d env
  | .ungrant _ _ => ummuUngrantImp info d [] maxLevelIndex
  | .ungrantByToken _ _ _ => ummuUngrantImp info d [] maxLevelIndex

def update (info : MaptInfo) (d : DataInfo) : ApiCall → Int × MaptInfo
  | .grant _ env => info.updateInfo env.recordAlloc d
  | .ungrant _ _ => info.updateInfo true d
  | .ungrantByToken _ _ _ => info.updateInfo true d

/-- What a call invalidates at its end. -/
def range (d : DataInfo) (lvl : Nat) : ApiCall → Option PlbiRange
  | .grant _ _ => none
  | .ungrant _ _ => some (ungrantEnd d lvl)
  | .ungrantByToken _ _ _ => some (ungrantEnd d lvl)
where
  ungrantEnd (d : DataInfo) (lvl : Nat) : PlbiRange :=
    if d.op = .ungrant then ungrantRange d.dataBase d.dataSize lvl else ⟨d.dataBase, d.dataSize⟩

/-- The steps of a call one after another: its code, the tid, the invalidations. -/
def steps (info : MaptInfo) (call : ApiCall) : Int × MaptInfo × List PlbiRange :=
  match call.check info with
  | none => (-einval, info, [])
  | some d =>
    let i := call.imp info d
    let u := if i.ret = 0 then call.update i.info d else (i.ret, i.info)
    (u.1, u.2, i.plbi ++ (call.range d i.lvl).toList)

end ApiCall

section Steps

variable {info : MaptInfo} {d : DataInfo}

/-- What a call comes to, without the trace of its table operation. -/
def CallResult.outcome (r : CallResult) : Int × MaptInfo × List PlbiRange := (r.ret, r.info, r.plbi)

lemma ApiCall.steps_none {call : ApiCall} (h : call.check info = none) :
    call.steps info = (-einval, info, []) := by
  rw [ApiCall.steps, h]

lemma ApiCall.steps_done {call : ApiCall} (h : call.check info = some d)
    (hret : (call.imp info d).ret = 0) :
    call.steps info = ((call.update (call.imp info d).info d).1,
      (call.update (call.imp info d).info d).2,
      (call.imp info d).plbi ++ (call.range d (call.imp info d).lvl).toList) := by
  rw [ApiCall.steps, h]
  simp only [if_pos hret]

lemma ApiCall.steps_failed {call : ApiCall} (h : call.check info = some d)
    (hret : (call.imp info d).ret ≠ 0) :
    call.steps info = ((call.imp info d).ret, (call.imp info d).info,
      (call.imp info d).plbi ++ (call.range d (call.imp info d).lvl).toList) := by
  rw [ApiCall.steps, h]
  simp only [if_neg hret]

/-- The steps of `ummu_grant` do what the whole call does. -/
theorem ummuGrant_steps {a : GrantArgs} {env : GrantEnv} :
    (ummuGrant info a env).outcome = (ApiCall.grant a env).steps info := by
  obtain ⟨tid, valid, doublePlbi, kcmdPlbi, base⟩ := info
  unfold ummuGrant
  cases hseg : a.segAttr with
  | none =>
    rw [ApiCall.steps_none (by rw [ApiCall.check, grantChecked, hseg, Option.bind_none])]
    rfl
  | some seg =>
    simp only
    by_cases hdata : ummuCheckData a.data a.dataSize a.perm seg.eBit
        (MaptInfo.mode ⟨tid, valid, doublePlbi, kcmdPlbi, base⟩) = false
    · rw [if_pos hdata, ApiCall.steps_none]
      · rfl
      · rw [ApiCall.check, grantChecked, hseg, Option.bind_some, if_pos hdata]
    rw [if_neg hdata]
    cases hpre : ummuPermDataPreproc a seg env.random with
    | none =>
      rw [ApiCall.steps_none]
      · rfl
      · rw [ApiCall.check, grantChecked, hseg, Option.bind_some, if_neg hdata, hpre,
          Option.bind_none]
    | some d =>
      have hchecked : (ApiCall.grant a env).check ⟨tid, valid, doublePlbi, kcmdPlbi, base⟩ =
          if ummuGrantCheck ⟨tid, valid, doublePlbi, kcmdPlbi, base⟩ d = .opEnd then none
          else some { d with
            op := ummuGrantCheck ⟨tid, valid, doublePlbi, kcmdPlbi, base⟩ d } := by
        rw [ApiCall.check, grantChecked, hseg, Option.bind_some, if_neg hdata, hpre,
          Option.bind_some]
      cases base with
      | entryBlock node =>
        by_cases hop : ummuEntryParamCheck node d = .opEnd
        · simp only [if_pos hop]
          rw [ApiCall.steps_none (hchecked.trans (if_pos hop))]
          rfl
        have hsome := hchecked.trans (if_neg hop)
        simp only [if_neg hop]
        by_cases hret : (ummuEntryOp node { d with op := ummuEntryParamCheck node d }).1 = 0
        · rw [ApiCall.steps_done hsome hret]
          exact Prod.ext hret (congrArg (Prod.mk _) (List.append_nil _).symm)
        · rw [ApiCall.steps_failed hsome hret]
          exact Prod.ext rfl (congrArg (Prod.mk _) (List.append_nil _).symm)
      | tableCtx ctx t =>
        by_cases hop : ummuTableGrantCheck t d = .opEnd
        · simp only [if_pos hop]
          rw [ApiCall.steps_none (hchecked.trans (if_pos hop))]
          rfl
        have hsome := hchecked.trans (if_neg hop)
        simp only [if_neg hop]
        by_cases hret : (ummuTableOp { d with op := ummuTableGrantCheck t d }
            (startMachine ctx env.maps env.lvl)).1 = 0
        · rw [ApiCall.steps_done hsome hret]
          simp only [CallResult.outcome, tableCall, if_pos hret]
          exact Prod.ext rfl (congrArg (Prod.mk _) (List.append_nil _).symm)
        · rw [ApiCall.steps_failed hsome hret]
          simp only [CallResult.outcome, tableCall, if_neg hret]
          exact Prod.ext rfl (congrArg (Prod.mk _) (List.append_nil _).symm)

/-- The outcome of `ummu_ungrant_data` by its steps. -/
structure UngrantSteps (info : MaptInfo) (o : Option DataInfo) (r : CallResult) : Prop where
  failed : o = none → r.outcome = (-einval, info, [])
  kept : ∀ d, o = some d → (ummuUngrantImp info d [] maxLevelIndex).ret ≠ 0 →
    r.outcome = ((ummuUngrantImp info d [] maxLevelIndex).ret,
      (ummuUngrantImp info d [] maxLevelIndex).info,
      [ApiCall.range.ungrantEnd d (ummuUngrantImp info d [] maxLevelIndex).lvl])
  done : ∀ d, o = some d → (ummuUngrantImp info d [] maxLevelIndex).ret = 0 →
    r.outcome = (((ummuUngrantImp info d [] maxLevelIndex).info.updateInfo true d).1,
      ((ummuUngrantImp info d [] maxLevelIndex).info.updateInfo true d).2,
      [ApiCall.range.ungrantEnd d (ummuUngrantImp info d [] maxLevelIndex).lvl])

lemma UngrantSteps.none {r : CallResult} (h : r.outcome = (-einval, info, [])) :
    UngrantSteps info none r := by
  refine ⟨fun _ => h, ?_, ?_⟩
  · intro d hd
    cases hd
  · intro d hd
    cases hd

theorem ummuUngrantData_steps {data size : BitVec 64} {tokenval : BitVec 32} {bytoken : Bool}
    (hsize : size ≠ 0) :
    UngrantSteps info (ungrantChecked info data size tokenval bytoken)
      (ummuUngrantData info data size tokenval bytoken) := by
  obtain ⟨tid, valid, doublePlbi, kcmdPlbi, base⟩ := info
  unfold ummuUngrantData
  rw [if_neg hsize]
  obtain ⟨d, hd⟩ : ∃ d, d = ungrantDataInfo data size tokenval bytoken := ⟨_, rfl⟩
  rw [← hd]
  cases base with
  | entryBlock node =>
    have hchecked : ungrantChecked ⟨tid, valid, doublePlbi, kcmdPlbi, .entryBlock node⟩ data size
        tokenval bytoken = if ummuEntryUngrantParamCheck node d = .opEnd then none
          else some { d with op := ummuEntryUngrantParamCheck node d } := by
      have hmode : ¬(MaptInfo.mode ⟨tid, valid, doublePlbi, kcmdPlbi, .entryBlock node⟩ = .table ∧
          alignVpageShiftCheck data = false) := by
        rintro ⟨h, _⟩
        cases h
      simp only [ungrantChecked]
      rw [if_neg hmode, hd]
      rfl
    rw [hchecked]
    by_cases hop : ummuEntryUngrantParamCheck node d = .opEnd
    · simp only [if_pos hop]
      exact .none rfl
    simp only [if_neg hop]
    refine ⟨(nomatch ·), fun d' h _ => ?_, fun d' h hret => ?_⟩
    · obtain rfl := Option.some.inj h
      rfl
    · obtain rfl := Option.some.inj h
      exact Prod.ext hret rfl
  | tableCtx ctx t =>
    simp only
    by_cases halign : alignVpageShiftCheck data = false
    · have hchecked : ungrantChecked ⟨tid, valid, doublePlbi, kcmdPlbi, .tableCtx ctx t⟩ data size
          tokenval bytoken = none := if_pos ⟨rfl, halign⟩
      rw [if_pos halign, hchecked]
      exact .none rfl
    have hchecked : ungrantChecked ⟨tid, valid, doublePlbi, kcmdPlbi, .tableCtx ctx t⟩ data size
        tokenval bytoken = if ummuTableUngrantCheck t d = .opEnd then none
          else some { d with op := ummuTableUngrantCheck t d } := by
      rw [hd]
      exact if_neg (fun h => halign h.2)
    rw [if_neg halign, hchecked]
    by_cases hop : ummuTableUngrantCheck t d = .opEnd
    · simp only [if_pos hop]
      exact .none rfl
    simp only [if_neg hop]
    refine ⟨(nomatch ·), fun d' h hret => ?_, fun d' h hret => ?_⟩
    · obtain rfl := Option.some.inj h
      have hret' : (ummuTableOp { d with op := ummuTableUngrantCheck t d }
        (startMachine ctx [] maxLevelIndex)).1 ≠ 0 := hret
      simp only [CallResult.outcome, tableCall, if_neg hret']
      rfl
    · obtain rfl := Option.some.inj h
      have hret' : (ummuTableOp { d with op := ummuTableUngrantCheck t d }
        (startMachine ctx [] maxLevelIndex)).1 = 0 := hret
      simp only [CallResult.outcome, tableCall, if_pos hret']
      rfl

lemma UngrantSteps.steps {call : ApiCall} {r : CallResult}
    (h : UngrantSteps info (call.check info) r)
    (himp : ∀ d, call.imp info d = ummuUngrantImp info d [] maxLevelIndex)
    (hupdate : ∀ i d, call.update i d = i.updateInfo true d)
    (hrange : ∀ d l, call.range d l = some (ApiCall.range.ungrantEnd d l)) :
    r.outcome = call.steps info := by
  have hplbi : ∀ d, (ummuUngrantImp info d [] maxLevelIndex).plbi = [] := by
    intro d
    unfold ummuUngrantImp
    cases info.blockBase <;> rfl
  cases hcheck : call.check info with
  | none => rw [h.failed hcheck, ApiCall.steps_none hcheck]
  | some d =>
    by_cases hret : (call.imp info d).ret = 0
    · rw [ApiCall.steps_done hcheck hret, himp, hupdate, hrange, hplbi]
      exact h.done d hcheck (himp d ▸ hret)
    · rw [ApiCall.steps_failed hcheck hret, himp, hrange, hplbi]
      exact h.kept d hcheck (himp d ▸ hret)

/-- A call that takes the mutexes does what its steps do one after another. -/
theorem ApiCall.run_steps {call : ApiCall} (h : call.refused = none) :
    (call.run info).outcome = call.steps info := by
  have hsize : ∀ size : BitVec 64, (if size = 0 then some (-enomem : Int) else none) = none →
      size ≠ 0 := by
    intro size hr hz
    rw [if_pos hz] at hr
    cases hr
  cases call with
  | grant a env => exact ummuGrant_steps
  | ungrant data size =>
    exact (ummuUngrantData_steps (hsize size h)).steps (fun _ => rfl) (fun _ _ => rfl) (fun _ _ => rfl)
  | ungrantByToken data size tokenVal =>
    exact (ummuUngrantData_steps (hsize size h)).steps (fun _ => rfl) (fun _ _ => rfl) (fun _ _ => rfl)

/-- A call changes the tables of its tid only. -/
lemma imp_frame (call : ApiCall) : ∃ b, (call.imp info d).info = { info with blockBase := b } := by
  have himp : ∀ maps lvl, ∃ b, (ummuUngrantImp info d maps lvl).info = { info with blockBase := b } := by
    intro maps lvl
    unfold ummuUngrantImp
    cases info.blockBase with
    | entryBlock node => exact ⟨_, rfl⟩
    | tableCtx ctx t => exact ⟨_, rfl⟩
  cases call with
  | grant a env => exact himp env.maps env.lvl
  | ungrant data size => exact himp _ _
  | ungrantByToken data size tokenVal => exact himp _ _

lemma update_frame (call : ApiCall) : ∃ b, (call.update info d).2 = { info with blockBase := b } := by
  have hupdate : ∀ r, ∃ b, (info.updateInfo r d).2 = { info with blockBase := b } := by
    intro r
    obtain ⟨tid, valid, doublePlbi, kcmdPlbi, base⟩ := info
    cases base with
    | entryBlock node => exact ⟨_, rfl⟩
    | tableCtx ctx t => exact ⟨_, rfl⟩
  cases call with
  | grant a env => exact hupdate env.recordAlloc
  | ungrant data size => exact hupdate true
  | ungrantByToken data size tokenVal => exact hupdate true

lemma imp_valid (call : ApiCall) : (call.imp info d).info.valid = info.valid := by
  obtain ⟨b, hb⟩ := @imp_frame info d call
  rw [hb]

lemma update_valid (call : ApiCall) : (call.update info d).2.valid = info.valid := by
  obtain ⟨b, hb⟩ := @update_frame info d call
  rw [hb]

lemma refused_run {call : ApiCall} {ret : Int} (h : call.refused = some ret) :
    call.run info = .failed info ret := by
  cases call with
  | grant a env =>
    simp only [ApiCall.refused] at h
    cases hseg : a.segAttr with
    | none =>
      rw [hseg] at h
      obtain rfl : -einval = ret := Option.some.inj h
      simp only [ApiCall.run, ummuGrant, hseg]
    | some seg =>
      rw [hseg] at h
      cases h
  | ungrant data size =>
    simp only [ApiCall.refused] at h
    by_cases hsize : size = 0
    · rw [if_pos hsize] at h
      obtain rfl := Option.some.inj h
      simp only [ApiCall.run, ummuUngrant, ummuUngrantData, if_pos hsize]
    · rw [if_neg hsize] at h
      cases h
  | ungrantByToken data size tokenVal =>
    simp only [ApiCall.refused] at h
    by_cases hsize : size = 0
    · rw [if_pos hsize] at h
      obtain rfl := Option.some.inj h
      simp only [ApiCall.run, ummuUngrantByToken, ummuUngrantData, if_pos hsize]
    · rw [if_neg hsize] at h
      cases h

theorem run_frame (call : ApiCall) : ∃ b, (call.run info).info = { info with blockBase := b } := by
  cases hrefused : call.refused with
  | some ret =>
    rw [refused_run hrefused]
    exact ⟨info.blockBase, rfl⟩
  | none =>
    have hinfo := congrArg (fun r => r.2.1) (@ApiCall.run_steps info call hrefused)
    simp only [CallResult.outcome] at hinfo
    rw [hinfo]
    cases hcheck : call.check info with
    | none =>
      rw [ApiCall.steps_none hcheck]
      exact ⟨info.blockBase, rfl⟩
    | some d =>
      obtain ⟨b, hb⟩ := @imp_frame info d call
      by_cases hret : (call.imp info d).ret = 0
      · obtain ⟨b', hb'⟩ := @update_frame (call.imp info d).info d call
        rw [ApiCall.steps_done hcheck hret, hb', hb]
        exact ⟨b', rfl⟩
      · rw [ApiCall.steps_failed hcheck hret]
        exact ⟨b, hb⟩

def ApiCall.IsUngrant : ApiCall → Prop
  | .grant _ _ => False
  | .ungrant _ _ => True
  | .ungrantByToken _ _ _ => True

/-- An ungrant that returns zero hands one range to `ummu_plbi_va_cmd`. -/
theorem ungrant_plbi {call : ApiCall} (hcall : call.IsUngrant) (hret : (call.run info).ret = 0) :
    ∃ range, (call.run info).plbi = [range] := by
  have hone : ∀ data size tokenval bytoken, (ummuUngrantData info data size tokenval bytoken).ret = 0 →
      ∃ range, (ummuUngrantData info data size tokenval bytoken).plbi = [range] := by
    intro data size tokenval bytoken hret
    have henomem : (-enomem : Int) ≠ 0 := by decide
    have heinval : (-einval : Int) ≠ 0 := by decide
    by_cases hsize : size = 0
    · rw [ummuUngrantData, if_pos hsize] at hret
      exact (henomem hret).elim
    have hsteps := @ummuUngrantData_steps info data size tokenval bytoken hsize
    cases hcheck : ungrantChecked info data size tokenval bytoken with
    | none =>
      have hfst := congrArg Prod.fst (hsteps.failed hcheck)
      exact (heinval (hfst.symm.trans hret)).elim
    | some d =>
      by_cases himp : (ummuUngrantImp info d [] maxLevelIndex).ret = 0
      · exact ⟨_, congrArg (fun r => r.2.2) (hsteps.done d hcheck himp)⟩
      · exact ⟨_, congrArg (fun r => r.2.2) (hsteps.kept d hcheck himp)⟩
  cases call with
  | grant a env => exact hcall.elim
  | ungrant data size => exact hone data size 0 false hret
  | ungrantByToken data size tokenVal => exact hone data size tokenVal true hret

end Steps

end Ummu
