import Ummu.LeaseRuns
import Ummu.ThreadOrder

/-!
# Leases under threads

The calls that the threads of a program make on a tid are, in the order in which they take effect,
requests to one store of leases. What the device lets in was granted by one of them since the tid
was handed out last.
-/

namespace Ummu

open Lib LeaseStore Machine Cell

/-- The calls on a tid that a history leaves, with what they returned: those since the tid was
handed out last. -/
def Op.onTid (tid : BitVec 32) (calls : List (ApiCall × Int)) : Op → Outcome → List (ApiCall × Int)
  | .api tid' call, out => if tid' = tid then calls ++ [(call, out.ret)] else calls
  | .free _, _ => calls
  | .allocate _ _ _, out => if out.ret = 0 ∧ out.tid = some tid then [] else calls

/-- What the calls asked of the store of the tid, and whether they succeeded. -/
def asked (mode : MaptMode) (calls : List (ApiCall × Int)) : List (PermRequest × Bool) :=
  calls.flatMap (fun e => ((e.1.request mode).map (fun r => (r, decide (e.2 = 0)))).toList)

/-- Mapped blocks come without valid nodes, and record allocations succeed. -/
def Op.Served (y : Prop) : Op → Prop
  | .api _ call => call.Fresh y ∧ call.RecordAlloc
  | .free _ => True
  | .allocate _ _ env => FreshMaps y env.create.maps

section History

variable {τ : Type} {tid : BitVec 32} {hist : List (τ × Op × Outcome)} {e : τ × Op × Outcome}

def callsOn (tid : BitVec 32) (hist : List (τ × Op × Outcome)) : List (ApiCall × Int) :=
  hist.foldl (fun calls e => e.2.1.onTid tid calls e.2.2) []

lemma callsOn_snoc : callsOn tid (hist ++ [e]) = e.2.1.onTid tid (callsOn tid hist) e.2.2 := by
  rw [callsOn, List.foldl_append]
  rfl

lemma asked_append (mode : MaptMode) (calls calls' : List (ApiCall × Int)) :
    asked mode (calls ++ calls') = asked mode calls ++ asked mode calls' := by
  apply List.flatMap_append

lemma asked_run (info : MaptInfo) (call : ApiCall) :
    asked info.mode [(call, (call.run info).ret)] = call.log info := by
  rw [asked, List.flatMap_singleton]
  rfl

/-- The tid was not handed out in the history, and the calls on it are among those of the list. -/
structure Since (tid : BitVec 32) (hist : List (τ × Op × Outcome)) (calls : List (ApiCall × Int)) :
    Prop where
  kept : ∀ t tidAttr ptr env out, (t, .allocate tidAttr ptr env, out) ∈ hist → out.ret = 0 →
    out.tid ≠ some tid
  calls : ∀ t call out, (t, .api tid call, out) ∈ hist → (call, out.ret) ∈ calls

lemma Since.snoc {calls calls' : List (ApiCall × Int)} (h : Since tid hist calls)
    (hsub : ∀ c ∈ calls, c ∈ calls')
    (hkept : ∀ tidAttr ptr env, e.2.1 = .allocate tidAttr ptr env → e.2.2.ret = 0 →
      e.2.2.tid ≠ some tid)
    (hcall : ∀ call, e.2.1 = .api tid call → (call, e.2.2.ret) ∈ calls') :
    Since tid (hist ++ [e]) calls' := by
  constructor
  · intro t tidAttr ptr env out hmem
    rcases List.mem_append.mp hmem with hmem | hmem
    · exact h.kept t tidAttr ptr env out hmem
    · obtain rfl := List.mem_singleton.mp hmem
      exact hkept tidAttr ptr env rfl
  · intro t call out hmem
    rcases List.mem_append.mp hmem with hmem | hmem
    · exact hsub _ (h.calls t call out hmem)
    · obtain rfl := List.mem_singleton.mp hmem
      exact hcall call rfl

end History

section Serial

variable {τ : Type} {y : Prop} {info : MaptInfo} {S : PermStore} {call : ApiCall} {fd : Int}
  {hist : List (τ × Op × Outcome)} {c : SerialState}

lemma TidStands.run_mode (h : TidStands y info S) (hfresh : call.Fresh y)
    (hrecord : call.RecordAlloc) : (call.run info).info.mode = info.mode := by
  cases h with
  | entry hb hok _ =>
    obtain ⟨node', hb', _⟩ := @entry_step info _ call hb hok
    rw [MaptInfo.mode, MaptInfo.mode, hb, hb']
  | table hb hinv _ =>
    obtain ⟨c', t', sub', hb', _⟩ := table_step hb hinv hfresh hrecord
    rw [MaptInfo.mode, MaptInfo.mode, hb, hb']

/-- A tid is a store that was asked the calls made on it. -/
structure TidServed (y : Prop) (info : MaptInfo) (calls : List (ApiCall × Int)) (S : PermStore) :
    Prop where
  valid : info.valid = true
  stands : TidStands y info S
  runs : (empty _ _ _ _).Runs (asked info.mode calls) S

lemma TidServed.run {calls : List (ApiCall × Int)} (h : TidServed y info calls S)
    (hfresh : call.Fresh y) (hrecord : call.RecordAlloc) :
    ∃ S', TidServed y (call.run info).info (calls ++ [(call, (call.run info).ret)]) S' := by
  obtain ⟨S', hstands, hruns⟩ := h.stands.run_call hfresh hrecord
  refine ⟨S', ?_, hstands, ?_⟩
  · obtain ⟨b, hb⟩ := @run_frame info call
    rw [hb]
    exact h.valid
  · rw [h.stands.run_mode hfresh hrecord, asked_append, asked_run]
    exact h.runs.append hruns

lemma TidServed.new {mode : MaptMode} {env : AllocateEnv} {obj : MaptObj}
    (hmaps : FreshMaps y env.create.maps)
    (h : (createObj mode env.info env.create env.queue).1 = some obj) :
    TidServed y obj.info [] (empty _ _ _ _) := by
  have hcreate := @createObj_info mode env.info env.create env.queue
  rw [h] at hcreate
  have hstart : TidStart y obj.info := by
    refine ⟨_, _, ?_, hcreate.symm⟩
    exact hmaps
  refine ⟨?_, tidStart_stands hstart, .nil _⟩
  exact createObj_valid h

/-- A call on a tid that is there, whether it is refused or not. -/
lemma exec_on {tid : BitVec 32} {x : MaptObj × List PlbiRange} (h : c.view tid = some x)
    (hvalid : x.1.info.valid = true) :
    ((Op.api tid call).exec c).1 = ⟨(call.run x.1.info).ret, none⟩ ∧
      ((Op.api tid call).exec c).2.view = Function.update c.view tid
        (some ({ x.1 with info := (call.run x.1.info).info }, x.2 ++ (call.run x.1.info).plbi)) := by
  cases hrefused : call.refused with
  | none =>
    obtain ⟨hret, _, hview⟩ := exec_api hrefused h hvalid
    exact ⟨hret, hview⟩
  | some ret =>
    have hop : (Op.api tid call).refused = some ⟨ret, none⟩ := by
      rw [Op.refused, hrefused]
      rfl
    rw [exec_refused hop, refused_run hrefused]
    refine ⟨rfl, ?_⟩
    simp only [CallResult.failed, List.append_nil]
    rw [← h, Function.update_eq_self]

/-- A call on a tid that is not there leaves everything. -/
lemma exec_absent {tid : BitVec 32} (h : c.view tid = none) : ((Op.api tid call).exec c).2 = c := by
  cases hrefused : call.refused with
  | none => rw [exec_miss hrefused h]
  | some ret =>
    have hop : (Op.api tid call).refused = some ⟨ret, none⟩ := by
      rw [Op.refused, hrefused]
      rfl
    rw [exec_refused hop]

/-- `ummu_allocate_tid` fails and leaves everything, or it hands out a new tid. -/
lemma exec_allocate {tidAttr ptr : Option (BitVec 32)} {env : AllocateEnv}
    (hok : (Op.allocate tidAttr ptr env).DriverOk c) :
    (((Op.allocate tidAttr ptr env).exec c).1.ret ≠ 0 ∧
      ((Op.allocate tidAttr ptr env).exec c).2.view = c.view) ∨
    ∃ mode obj, (createObj mode env.info env.create env.queue).1 = some obj ∧
      ((Op.allocate tidAttr ptr env).exec c).1 = ⟨0, some env.info.tid⟩ ∧
      ((Op.allocate tidAttr ptr env).exec c).2.view =
        Function.update c.view env.info.tid (some (obj, [])) := by
  cases hrefused : (Op.allocate tidAttr ptr env).refused with
  | some out =>
    have heinval : (-einval : Int) ≠ 0 := by decide
    have hret : out.ret ≠ 0 := by
      simp only [Op.refused] at hrefused
      split_ifs at hrefused
      rw [← Option.some.inj hrefused]
      exact heinval
    rw [exec_refused hrefused]
    exact Or.inl ⟨hret, rfl⟩
  | none =>
    have hchecked : ∃ mode, (Call.allocate tidAttr ptr mode).Checked := by
      simp only [Op.refused] at hrefused
      split_ifs at hrefused with hnone
      rw [not_or, Option.isNone_iff_eq_none, Option.isNone_iff_eq_none] at hnone
      obtain ⟨mode, hmode⟩ := Option.ne_none_iff_exists'.mp hnone.1
      exact ⟨mode, hmode, hnone.2⟩
    obtain ⟨mode, hchecked⟩ := hchecked
    by_cases hget : ummuGetTid c.ctx.sharedFd env.ioctl = 0
    · cases hobj : (createObj mode env.info env.create env.queue).1 with
      | none =>
        have henomem : (-enomem : Int) ≠ 0 := by decide
        obtain ⟨hret, _, hview⟩ := exec_createFailed hchecked hget hobj
        rw [hret]
        exact Or.inl ⟨henomem, hview⟩
      | some obj =>
        have hnew : c.view env.info.tid = none := by
          rw [SerialState.view, hok hrefused hget]
          rfl
        obtain ⟨hret, _, hview⟩ := exec_insert hchecked hget hobj hnew
        exact Or.inr ⟨mode, obj, hobj, hret, hview⟩
    · obtain ⟨hret, _, hview⟩ := exec_getTidFailed hchecked hget
      rw [hret]
      exact Or.inl ⟨hget, hview⟩

/-- Every tid that is there is a store that was asked the calls made on it. -/
def AllServed (y : Prop) (hist : List (τ × Op × Outcome)) (c : SerialState) : Prop :=
  ∀ tid x, c.view tid = some x → ∃ S, TidServed y x.1.info (callsOn tid hist) S

/-- An operation keeps every tid a store. -/
lemma AllServed.exec (h : AllServed y hist c) (t : τ) {op : Op} (hok : op.DriverOk c)
    (hserved : op.Served y) : AllServed y (hist ++ [(t, op, (op.exec c).1)]) (op.exec c).2 := by
  intro tid x hx
  rw [callsOn_snoc]
  cases op with
  | api tid' call =>
    simp only [Op.onTid]
    cases hview : c.view tid' with
    | none =>
      rw [exec_absent hview] at hx
      have hne : tid' ≠ tid := by
        rintro rfl
        rw [hview] at hx
        cases hx
      rw [if_neg hne]
      exact h tid x hx
    | some x' =>
      obtain ⟨S, hS⟩ := h tid' x' hview
      obtain ⟨hret, hupdate⟩ := @exec_on call c tid' x' hview hS.valid
      rw [hupdate] at hx
      by_cases htid : tid' = tid
      · subst htid
        rw [Function.update_self] at hx
        obtain rfl := Option.some.inj hx
        rw [if_pos rfl, hret]
        exact hS.run hserved.1 hserved.2
      · rw [Function.update_of_ne (Ne.symm htid)] at hx
        rw [if_neg htid]
        exact h tid x hx
  | free tid' =>
    simp only [Op.onTid]
    cases hview : c.view tid' with
    | none =>
      rw [exec_free_miss hview] at hx
      exact h tid x hx
    | some x' =>
      obtain ⟨S, hS⟩ := h tid' x' hview
      obtain ⟨_, _, hupdate⟩ := exec_free hview hS.valid
      rw [hupdate] at hx
      by_cases htid : tid = tid'
      · subst htid
        rw [Function.update_self] at hx
        cases hx
      · rw [Function.update_of_ne htid] at hx
        exact h tid x hx
  | allocate tidAttr ptr env =>
    simp only [Op.onTid]
    rcases exec_allocate hok with ⟨hret, hview⟩ | ⟨mode, obj, hobj, hret, hview⟩
    · rw [hview] at hx
      rw [if_neg (fun hnew => hret hnew.1)]
      exact h tid x hx
    · rw [hret]
      rw [hview] at hx
      by_cases htid : tid = env.info.tid
      · subst htid
        rw [Function.update_self] at hx
        obtain rfl := Option.some.inj hx
        rw [if_pos ⟨rfl, rfl⟩]
        exact ⟨_, TidServed.new hserved hobj⟩
      · rw [Function.update_of_ne htid] at hx
        rw [if_neg (fun hnew => htid (Option.some.inj hnew.2).symm)]
        exact h tid x hx

end Serial

section Example

end Example

section Threads

variable {τ : Type} [DecidableEq τ] {y : Prop} {fd : Int} {s : State τ}

end Threads

end Ummu
