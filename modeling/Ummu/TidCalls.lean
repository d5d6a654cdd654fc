import Ummu.Tid

/-!
# Calls and their outcomes

What the argument checks and the look-up of a call let through, and from it the outcome of every
call on a table-mode tid.
-/

namespace Ummu

open Lib Machine Cell

section Checks

variable {data size : BitVec 64} {perm eBit : BitVec 32} {mode : MaptMode}

lemma and_not_eq_self {w : Nat} (v k : BitVec w) : v &&& ~~~k = v ↔ v &&& k = 0 := by
  constructor
  · intro h
    rw [← h]
    ext i hi
    simp
  · intro h
    ext i hi
    have hbit := congrArg (fun x => x[i]) h
    simp only [BitVec.getElem_and, BitVec.getElem_zero, BitVec.ofNat_eq_ofNat] at hbit
    simp only [BitVec.getElem_and, BitVec.getElem_not]
    cases hv : v[i] <;> cases hk : k[i] <;> simp_all

lemma alignVpageShiftCheck_iff : alignVpageShiftCheck data = true ↔ 4096 ∣ data.toNat := by
  have hlow : (BitVec.ofNat 64 (2 ^ maptVpageShift) - 1).toNat = 2 ^ 12 - 1 := by decide
  rw [alignVpageShiftCheck, decide_eq_true_eq, and_not_eq_self, ← BitVec.toNat_inj,
    BitVec.toNat_and, hlow, Nat.and_two_pow_sub_one_eq_mod]
  exact Nat.dvd_iff_mod_eq_zero.symm

lemma ushiftRight_eq_zero {x : BitVec 64} : x >>> maxAddressBits = 0 ↔ x.toNat < 2 ^ 48 := by
  rw [← BitVec.toNat_inj, BitVec.toNat_ushiftRight, Nat.shiftRight_eq_div_pow]
  simp only [maxAddressBits, BitVec.ofNat_eq_ofNat, BitVec.toNat_ofNat]
  omega

lemma checkPerm_lt (h : ummuCheckPerm perm = true) : perm.toNat < 2 ^ 6 := by
  simp only [ummuCheckPerm, Bool.or_eq_true, decide_eq_true_eq] at h
  rcases h with ((((rfl | rfl) | rfl) | rfl) | rfl) | rfl <;> decide

lemma checkData_ok (h : ummuCheckData data size perm eBit mode = true) :
    size.toNat ≠ 0 ∧ data.toNat + (size.toNat - 1) < 2 ^ 48 ∧
      (data + size - 1).toNat = data.toNat + (size.toNat - 1) ∧
      (mode = .table → 4096 ∣ data.toNat) ∧ perm.toNat < 2 ^ 6 ∧ eBit.toNat < 2 := by
  unfold ummuCheckData at h
  by_cases h0 : size = 0
  · rw [if_pos h0] at h
    cases h
  rw [if_neg h0] at h
  by_cases hlim : data >>> maxAddressBits ≠ 0 ∨ (size - 1) >>> maxAddressBits ≠ 0 ∨
      (data + size - 1) >>> maxAddressBits ≠ 0
  · rw [if_pos hlim] at h
    cases h
  rw [if_neg hlim] at h
  push Not at hlim
  simp only [ushiftRight_eq_zero] at hlim
  obtain ⟨h1, h2, h3⟩ := hlim
  have hne : size.toNat ≠ 0 := fun hs => h0 (BitVec.eq_of_toNat_eq hs)
  have hsum : data.toNat + (size.toNat - 1) < 2 ^ 48 ∧
      (data + size - 1).toNat = data.toNat + (size.toNat - 1) := by
    bv_omega
  by_cases halign : mode = .table ∧ alignVpageShiftCheck data = false
  · rw [if_pos halign] at h
    cases h
  rw [if_neg halign, Bool.and_eq_true] at h
  refine ⟨hne, hsum.1, hsum.2, fun hmode => ?_, checkPerm_lt h.1, ?_⟩
  · by_contra hd
    refine halign ⟨hmode, ?_⟩
    rw [← Bool.not_eq_true]
    exact fun ha => hd (alignVpageShiftCheck_iff.mp ha)
  · have hebit := of_decide_eq_true h.2
    rwa [BitVec.lt_def] at hebit

end Checks

section Lookup

variable {t : RangeTable} {d : DataInfo}

lemma paramCheck_add {s : SegInfo} {op : GrantOpType} (h : ummuTableParamCheck s d = op) :
    op = .opEnd ∨ (op = .addToken ∧ s.tokenCheck = true ∧ s.tokenCount = 1) := by
  unfold ummuTableParamCheck at h
  by_cases hc : (s.tokenCheck = true ∧ d.tokenCheck = true) ∧ s.permission = d.perm ∧
      s.eBit = d.eBit ∧ s.tokenCount = 1
  · rw [if_pos hc] at h
    exact Or.inr ⟨h.symm, hc.1.1, hc.2.2.2⟩
  · rw [if_neg hc] at h
    exact Or.inl h.symm

/-- What `ummu_grant_check` lets through in table mode. -/
lemma grantCheck_cases (hs : Segs t) (hd : DataOk d) (hsize : d.dataSize < 2 ^ 64) :
    ummuTableGrantCheck (some t) d = .opEnd ∨
    (ummuTableGrantCheck (some t) d = .grant ∧
      ∀ f ∈ t, f.1.right < d.dataBase ∨ d.dataLimit < f.1.left) ∨
    (ummuTableGrantCheck (some t) d = .addToken ∧
      ∃ e ∈ t, SegOf d e ∧ e.2.tokenCheck = true ∧ e.2.tokenCount = 1) := by
  unfold ummuTableGrantCheck
  simp only
  generalize hfind : ummuFindSeg d.dataBase (d.dataSize - 1) t = r
  obtain ⟨o, ret⟩ := r
  cases ret with
  | rangeMatch =>
    cases o with
    | none => exact Or.inl rfl
    | some data =>
      obtain ⟨e, he, rfl, hk⟩ := findSeg_match hfind
      rcases paramCheck_add rfl with hop | ⟨hop, h1, h2⟩
      · exact Or.inl hop
      · refine Or.inr (Or.inr ⟨hop, e, he, ⟨hk, hsize, ?_⟩, h1, h2⟩)
        rw [hk, hd.range]
  | rangeOverlap => cases o <;> exact Or.inl rfl
  | rangeNotExist =>
    refine Or.inr (Or.inl ⟨by cases o <;> rfl, fun f hf => ?_⟩)
    have hnone := find_none hs.apart (findSeg_notExist (congrArg Prod.snd hfind)) hf
    rwa [hd.range] at hnone

lemma ungrantParamCheck_cases {s : SegInfo} {op : GrantOpType}
    (h : ummuUngrantParamCheck s d = op) :
    op = .opEnd ∨ op = .ungrant ∨ (op = .removeToken ∧ s.tokenCheck = true ∧ s.tokenCount = 2 ∧
      (s.tokenVal0 = d.tokenVal ∨ s.tokenVal1 = d.tokenVal)) := by
  unfold ummuUngrantParamCheck at h
  subst h
  split_ifs with h1 h2 h3 h4 h5
  · exact Or.inr (Or.inl rfl)
  · exact Or.inl rfl
  · exact Or.inr (Or.inl rfl)
  · refine Or.inr (Or.inr ⟨rfl, ?_, h5, h3⟩)
    simpa using h2
  · exact Or.inl rfl
  · exact Or.inl rfl

/-- What `ummu_ungrant_check` lets through in table mode. -/
lemma ungrantCheck_cases :
    ummuTableUngrantCheck (some t) d = .opEnd ∨
    ∃ e ∈ t, e.1 = Range.ofSize d.dataBase (d.dataSize - 1) ∧
      ummuTableUngrantCheck (some t) d = ummuUngrantParamCheck e.2 d := by
  unfold ummuTableUngrantCheck
  simp only
  generalize hfind : ummuFindSeg d.dataBase (d.dataSize - 1) t = r
  obtain ⟨o, ret⟩ := r
  cases ret with
  | rangeMatch =>
    cases o with
    | none => exact Or.inl rfl
    | some data =>
      obtain ⟨e, he, rfl, hk⟩ := findSeg_match hfind
      exact Or.inr ⟨e, he, hk, rfl⟩
  | rangeOverlap => cases o <;> exact Or.inl rfl
  | rangeNotExist => cases o <;> exact Or.inl rfl

end Lookup

/-- The tid with the given table and range table. -/
def MaptInfo.withTable (info : MaptInfo) (c : TableCtx) (t : RangeTable) : MaptInfo :=
  { info with blockBase := .tableCtx c (some t) }

/-- The outcome of a call on a table-mode tid whose records are `t` and whose tree is `sub`. -/
inductive TableOutcome (y : Prop) (info : MaptInfo) (t : RangeTable) (sub : SegBlock 3) :
    CallResult → Prop where
  /-- The call is refused before any table operation. -/
  | refused {code : Int} (hcode : code ≠ 0) : TableOutcome y info t sub (.failed info code)
  | granted {d : DataInfo} {c' : TableCtx} {t' : RangeTable} {sub' : SegBlock 3}
      {plbi : List PlbiRange} {trace : List Event} (hd : DataOk d)
      (hfree : ∀ f ∈ t, f.1.right < d.dataBase ∨ d.dataLimit < f.1.left)
      (hinv : TableInv y c' t' sub')
      (hmem : ∀ f, f ∈ t' ↔ f = (⟨d.dataBase, d.dataLimit⟩, newSegInfo d) ∨ f ∈ t)
      (htrace : ∀ ev ∈ trace, Quiet allocErrors ev) :
      TableOutcome y info t sub ⟨0, info.withTable c' t', plbi, trace⟩
  /-- An allocation failed, and the table operation was rolled back. -/
  | allocFailed {d : DataInfo} {code : Int} {c' : TableCtx} {plbi : List PlbiRange}
      {trace : List Event} (hd : DataOk d)
      (hfree : ∀ f ∈ t, f.1.right < d.dataBase ∨ d.dataLimit < f.1.left) (hcode : code ≠ 0)
      (hsome : t ≠ []) (hinv : TableInv y c' t sub) (htrace : RolledBack trace) :
      TableOutcome y info t sub ⟨code, info.withTable c' t, plbi, trace⟩
  /-- A token of a recorded segment was added or removed. -/
  | token {d : DataInfo} {e : Range × SegInfo} {c' : TableCtx} {t' : RangeTable}
      {sub' : SegBlock 3} {plbi : List PlbiRange} {trace : List Event} (he : e ∈ t)
      (hd : SegOf d e) (hready : TokenReady d e.2)
      (hcount : d.op = .removeToken → e.2.tokenCount = 2) (hinv : TableInv y c' t' sub')
      (hmem : ∀ f, f ∈ t' ↔ f = (e.1, tokenRecord d e.2) ∨ (f ∈ t ∧ f ≠ e))
      (htrace : ∀ ev ∈ trace, Quiet ∅ ev) :
      TableOutcome y info t sub ⟨0, info.withTable c' t', plbi, trace⟩
  /-- A recorded segment was taken back. -/
  | ungranted {d : DataInfo} {e : Range × SegInfo} {c' : TableCtx} {t' : RangeTable}
      {sub' : SegBlock 3} {plbi : List PlbiRange} {trace : List Event} (he : e ∈ t)
      (hd : SegOf d e) (hinv : TableInv y c' t' sub') (hmem : ∀ f, f ∈ t' ↔ f ∈ t ∧ f ≠ e)
      (htrace : ∀ ev ∈ trace, Quiet ∅ ev) :
      TableOutcome y info t sub ⟨0, info.withTable c' t', plbi, trace⟩

section Outcome

variable {y : Prop} {info : MaptInfo} {c : TableCtx} {t : RangeTable} {sub : SegBlock 3}

lemma traces_start {Q : Event → Prop} {maps : List MapOutcome} {lvl : Nat} {m : Machine}
    (h : (startMachine c maps lvl).Traces Q m) : ∀ ev ∈ m.trace, Q ev := by
  obtain ⟨es, h1, h2⟩ := h
  rw [h1]
  exact h2

/-- The data that a grant works on after its checks. -/
lemma preproc_ok {a : GrantArgs} {seg : SegAttr} {random : Option (BitVec 32)} {d : DataInfo}
    (hcheck : ummuCheckData a.data a.dataSize a.perm seg.eBit .table = true)
    (h : ummuPermDataPreproc a seg random = some d) (op : GrantOpType) :
    DataOk { d with op := op } ∧ d.dataSize < 2 ^ 64 := by
  obtain ⟨h1, h2, h3, h4, h5, h6⟩ := checkData_ok hcheck
  unfold ummuPermDataPreproc at h
  obtain ⟨v, _, rfl⟩ := Option.map_eq_some_iff.mp h
  refine ⟨⟨h1, ?_, ?_, h4 rfl, h5, h6⟩, a.dataSize.isLt⟩
  · show (a.data + a.dataSize - 1).toNat + 1 = a.data.toNat + a.dataSize.toNat
    omega
  · show (a.data + a.dataSize - 1).toNat < 2 ^ 48
    omega

/-- The data of an ungrant call that names a recorded segment. -/
lemma ungrant_segOf {data size : BitVec 64} (tokenval : BitVec 32) (bytoken : Bool) (hs : Segs t)
    {e : Range × SegInfo} (he : e ∈ t) (hsize : size ≠ 0)
    (hk : e.1 = Range.ofSize data.toNat (size.toNat - 1)) (op : GrantOpType) :
    SegOf { ungrantDataInfo data size tokenval bytoken with op := op } e := by
  have hlt := size.isLt
  have hne : size.toNat ≠ 0 := fun h => hsize (BitVec.eq_of_toNat_eq h)
  obtain ⟨h1, h2⟩ := hs.no_wrap he (by omega) hk
  have h3 := (hs.ok e he).lt
  refine ⟨hk, hlt, ?_⟩
  show (data + size - 1).toNat = e.1.right
  bv_omega

/-- The data that an ungrant call hands to the table operation. -/
def ungrantData (t : RangeTable) (data size : BitVec 64) (tokenval : BitVec 32) (bytoken : Bool) :
    Option DataInfo :=
  let d := ungrantDataInfo data size tokenval bytoken
  if size = 0 ∨ alignVpageShiftCheck data = false ∨ ummuTableUngrantCheck (some t) d = .opEnd then
    none
  else some { d with op := ummuTableUngrantCheck (some t) d }

/-- The data that a grant hands to the table operation. -/
def grantData (t : RangeTable) (a : GrantArgs) (random : Option (BitVec 32)) : Option DataInfo :=
  a.segAttr.bind (fun seg =>
    if ummuCheckData a.data a.dataSize a.perm seg.eBit .table = false then none
    else (ummuPermDataPreproc a seg random).bind (fun d =>
      if ummuTableGrantCheck (some t) d = .opEnd then none
      else some { d with op := ummuTableGrantCheck (some t) d }))

/-- The data with which a call on a table-mode tid comes to the table operation, unless the call is
refused. -/
def ApiCall.data (t : RangeTable) : ApiCall → Option DataInfo
  | .grant a env => grantData t a env.random
  | .ungrant data size => ungrantData t data size 0 false
  | .ungrantByToken data size tokenVal => ungrantData t data size tokenVal true

/-- The mappings, the record allocation and the value of `lvl` that the table operation meets. -/
def ApiCall.maps : ApiCall → List MapOutcome
  | .grant _ env => env.maps
  | .ungrant _ _ => []
  | .ungrantByToken _ _ _ => []

def ApiCall.recordAlloc : ApiCall → Bool
  | .grant _ env => env.recordAlloc
  | .ungrant _ _ => true
  | .ungrantByToken _ _ _ => true

def ApiCall.lvl : ApiCall → Nat
  | .grant _ env => env.lvl
  | .ungrant _ _ => maxLevelIndex
  | .ungrantByToken _ _ _ => maxLevelIndex

/-- The code of a call that is refused before any table operation. -/
def ApiCall.refusal : ApiCall → Int
  | .grant _ _ => -einval
  | .ungrant _ size => if size = 0 then -enomem else -einval
  | .ungrantByToken _ size _ => if size = 0 then -enomem else -einval

lemma ApiCall.refusal_ne (call : ApiCall) : call.refusal ≠ 0 := by
  have heinval : (-einval : Int) ≠ 0 := by decide
  have henomem : (-enomem : Int) ≠ 0 := by decide
  have hsize : ∀ size : BitVec 64, (if size = 0 then -enomem else -einval) ≠ 0 := by
    intro size
    by_cases h : size = 0
    · rwa [if_pos h]
    · rwa [if_neg h]
  cases call with
  | grant a env => exact heinval
  | ungrant data size => exact hsize size
  | ungrantByToken data size tokenVal => exact hsize size

/-- What a call on a table-mode tid does: it is refused, or it is a table operation and the update
of the range table behind it. -/
inductive RunsAs (info : MaptInfo) (c : TableCtx) (t : RangeTable) (call : ApiCall) :
    CallResult → Prop where
  | refused (hdata : call.data t = none) : RunsAs info c t call (.failed info call.refusal)
  | table {d : DataInfo} {opRet ret : Int} {m : Machine} {t' : Option RangeTable}
      {plbi : List PlbiRange} (hdata : call.data t = some d)
      (hrun : tableCall call.recordAlloc c (some t) d call.maps call.lvl = (opRet, ret, m, t')) :
      RunsAs info c t call
        ⟨ret, { info with blockBase := .tableCtx m.ctx t' }, plbi, m.trace⟩

lemma ungrant_runsAs (hb : info.blockBase = .tableCtx c (some t)) {data size : BitVec 64}
    {tokenval : BitVec 32} {bytoken : Bool} {call : ApiCall}
    (hrun : call.run info = ummuUngrantData info data size tokenval bytoken)
    (hdata : call.data t = ungrantData t data size tokenval bytoken)
    (hmaps : call.maps = []) (hrecord : call.recordAlloc = true) (hlvl : call.lvl = maxLevelIndex)
    (hrefusal : call.refusal = if size = 0 then -enomem else -einval) :
    RunsAs info c t call (call.run info) := by
  rw [hrun]
  simp only [ummuUngrantData, hb]
  by_cases hsize : size = 0
  · rw [if_pos hsize] at hrefusal ⊢
    rw [← hrefusal]
    exact .refused (hdata.trans (if_pos (Or.inl hsize)))
  rw [if_neg hsize] at hrefusal ⊢
  by_cases halign : alignVpageShiftCheck data = false
  · rw [if_pos halign]
    rw [← hrefusal]
    exact .refused (hdata.trans (if_pos (Or.inr (Or.inl halign))))
  rw [if_neg halign]
  by_cases hop : ummuTableUngrantCheck (some t) (ungrantDataInfo data size tokenval bytoken) = .opEnd
  · rw [if_pos hop]
    rw [← hrefusal]
    exact .refused (hdata.trans (if_pos (Or.inr (Or.inr hop))))
  · rw [if_neg hop]
    refine .table (hdata.trans (if_neg ?_)) (by rw [hmaps, hrecord, hlvl])
    rintro (h | h | h)
    · exact hsize h
    · exact halign h
    · exact hop h

theorem run_runsAs (hb : info.blockBase = .tableCtx c (some t)) (call : ApiCall) :
    RunsAs info c t call (call.run info) := by
  cases call with
  | ungrant data size => exact ungrant_runsAs hb rfl rfl rfl rfl rfl rfl
  | ungrantByToken data size tokenVal => exact ungrant_runsAs hb rfl rfl rfl rfl rfl rfl
  | grant a env =>
    have hmode : info.mode = .table := by rw [MaptInfo.mode, hb]
    have hdata : (ApiCall.grant a env).data t = grantData t a env.random := rfl
    unfold grantData at hdata
    simp only [ApiCall.run, ummuGrant]
    cases hseg : a.segAttr with
    | none =>
      rw [hseg] at hdata
      exact .refused hdata
    | some seg =>
      rw [hseg, Option.bind_some] at hdata
      simp only [hmode]
      by_cases hcheck : ummuCheckData a.data a.dataSize a.perm seg.eBit .table = false
      · rw [if_pos hcheck] at hdata ⊢
        exact .refused hdata
      rw [if_neg hcheck] at hdata ⊢
      cases hpre : ummuPermDataPreproc a seg env.random with
      | none =>
        rw [hpre] at hdata
        exact .refused hdata
      | some d =>
        rw [hpre, Option.bind_some] at hdata
        simp only [hb]
        by_cases hop : ummuTableGrantCheck (some t) d = .opEnd
        · rw [if_pos hop] at hdata ⊢
          exact .refused hdata
        · rw [if_neg hop] at hdata ⊢
          exact .table hdata rfl

/-- What the checks let through to the table operation. -/
inductive Accepted (t : RangeTable) (d : DataInfo) : Prop where
  | grant (hop : d.op = .grant) (hd : DataOk d)
      (hfree : ∀ f ∈ t, f.1.right < d.dataBase ∨ d.dataLimit < f.1.left)
  | token {e : Range × SegInfo} (he : e ∈ t) (hd : SegOf d e) (hready : TokenReady d e.2)
      (hcount : d.op = .removeToken → e.2.tokenCount = 2)
  | ungrant {e : Range × SegInfo} (hop : d.op = .ungrant) (he : e ∈ t) (hd : SegOf d e)

lemma ungrantData_accepted (hs : Segs t) {data size : BitVec 64} {tokenval : BitVec 32}
    {bytoken : Bool} {d : DataInfo} (h : ungrantData t data size tokenval bytoken = some d) :
    Accepted t d := by
  unfold ungrantData at h
  simp only at h
  by_cases hcond : size = 0 ∨ alignVpageShiftCheck data = false ∨
      ummuTableUngrantCheck (some t) (ungrantDataInfo data size tokenval bytoken) = .opEnd
  · rw [if_pos hcond] at h
    cases h
  rw [if_neg hcond] at h
  simp only [not_or] at hcond
  obtain ⟨hsize, _, hend⟩ := hcond
  obtain rfl := Option.some.inj h
  rcases ungrantCheck_cases (t := t) (d := ungrantDataInfo data size tokenval bytoken) with
    hop | ⟨e, he, hk, hop⟩
  · exact (hend hop).elim
  · have hseg := ungrant_segOf tokenval bytoken hs he hsize hk
    rw [hop] at hend ⊢
    rcases ungrantParamCheck_cases (s := e.2) (d := ungrantDataInfo data size tokenval bytoken) rfl
      with hop' | hop' | ⟨hop', h1, h2, h3⟩
    · exact (hend hop').elim
    · exact .ungrant hop' he (hseg _)
    · exact .token he (hseg _) ⟨h1, Or.inr ⟨hop', h3⟩⟩ (fun _ => h2)

lemma data_accepted (hs : Segs t) {call : ApiCall} {d : DataInfo} (h : call.data t = some d) :
    Accepted t d := by
  cases call with
  | ungrant data size => exact ungrantData_accepted hs h
  | ungrantByToken data size tokenVal => exact ungrantData_accepted hs h
  | grant a env =>
    obtain ⟨seg, _, h⟩ := Option.bind_eq_some_iff.mp h
    by_cases hcheck : ummuCheckData a.data a.dataSize a.perm seg.eBit .table = false
    · rw [if_pos hcheck] at h
      cases h
    rw [if_neg hcheck] at h
    rw [Bool.not_eq_false] at hcheck
    obtain ⟨d₀, hpre, h⟩ := Option.bind_eq_some_iff.mp h
    by_cases hend : ummuTableGrantCheck (some t) d₀ = .opEnd
    · rw [if_pos hend] at h
      cases h
    rw [if_neg hend] at h
    obtain rfl := Option.some.inj h
    obtain ⟨hok, hsize⟩ := preproc_ok hcheck hpre d₀.op
    rcases grantCheck_cases hs hok hsize with hop | ⟨hop, hfree⟩ | ⟨hop, e, he, hd, h1, h2⟩
    · exact (hend hop).elim
    · rw [hop]
      exact .grant rfl (preproc_ok hcheck hpre .grant).1 hfree
    · rw [hop]
      exact .token he ⟨hd.range, hd.size, hd.limit⟩ ⟨h1, Or.inl ⟨rfl, h2⟩⟩ (fun h => by cases h)

lemma ApiCall.Fresh.maps {call : ApiCall} (h : call.Fresh y) : FreshMaps y call.maps := by
  cases call with
  | grant a env => exact h
  | ungrant data size => exact fun mem hmem => by cases hmem
  | ungrantByToken data size tokenVal => exact fun mem hmem => by cases hmem

lemma ApiCall.RecordAlloc.eq {call : ApiCall} (h : call.RecordAlloc) : call.recordAlloc = true := by
  cases call with
  | grant a env => exact h
  | ungrant data size => rfl
  | ungrantByToken data size tokenVal => rfl

/-- Every call on a table-mode tid, from a state that satisfies the invariant. -/
theorem call_outcome (hb : info.blockBase = .tableCtx c (some t)) (h : TableInv y c t sub)
    {call : ApiCall} (hfresh : call.Fresh y) (hrecord : call.RecordAlloc) :
    TableOutcome y info t sub (call.run info) := by
  have hmaps := hfresh.maps
  have hruns := run_runsAs hb call
  generalize call.run info = r at hruns ⊢
  cases hruns with
  | refused _ => exact .refused call.refusal_ne
  | table hdata hrun =>
    rw [hrecord.eq] at hrun
    cases data_accepted h.segs hdata with
    | grant hop hd hfree =>
      rcases tableCall_grant h hmaps hd hop hfree with
        ⟨m, t', sub', hgo, hinv, hmem, htrace⟩ | ⟨code, m, hgo, hcode, hsome, hinv, htrace⟩
      · obtain ⟨rfl, rfl, rfl, rfl⟩ := by simpa using hrun.symm.trans hgo
        exact .granted hd hfree hinv hmem (traces_start htrace)
      · obtain ⟨rfl, rfl, rfl, rfl⟩ := by simpa using hrun.symm.trans hgo
        exact .allocFailed hd hfree hcode hsome hinv htrace
    | token he hd hready hcount =>
      obtain ⟨m, t', sub', hgo, hinv, hmem, htrace⟩ := tableCall_token h hmaps he hd hready
      obtain ⟨rfl, rfl, rfl, rfl⟩ := by simpa using hrun.symm.trans hgo
      exact .token he hd hready hcount hinv hmem (traces_start htrace)
    | ungrant hop he hd =>
      obtain ⟨m, t', sub', hgo, hinv, hmem, htrace⟩ := tableCall_ungrant h hmaps he hd hop
      obtain ⟨rfl, rfl, rfl, rfl⟩ := by simpa using hrun.symm.trans hgo
      exact .ungranted he hd hinv hmem (traces_start htrace)

/-- A tid in either mode, in table mode with the invariant. -/
def TidInv (y : Prop) (info : MaptInfo) : Prop :=
  (∃ node, info.blockBase = .entryBlock node) ∨
  ∃ c t sub, info.blockBase = .tableCtx c (some t) ∧ TableInv y c t sub

lemma TableOutcome.inv {r : CallResult} (hb : info.blockBase = .tableCtx c (some t))
    (h : TableInv y c t sub) (ho : TableOutcome y info t sub r) : TidInv y r.info := by
  cases ho with
  | refused _ => exact Or.inr ⟨c, t, sub, hb, h⟩
  | granted _ _ hinv _ _ => exact Or.inr ⟨_, _, _, rfl, hinv⟩
  | allocFailed _ _ _ _ hinv _ => exact Or.inr ⟨_, _, _, rfl, hinv⟩
  | token _ _ _ _ hinv _ _ => exact Or.inr ⟨_, _, _, rfl, hinv⟩
  | ungranted _ _ hinv _ _ => exact Or.inr ⟨_, _, _, rfl, hinv⟩

/-- Calls on an entry-mode tid leave it in entry mode. -/
lemma entry_call {node : EntryNode} (hb : info.blockBase = .entryBlock node) (call : ApiCall) :
    ∃ node', (call.run info).info.blockBase = .entryBlock node' := by
  have hself : ∃ node', info.blockBase = .entryBlock node' := ⟨node, hb⟩
  have hungrant : ∀ data size tokenval bytoken, ∃ node',
      (ummuUngrantData info data size tokenval bytoken).info.blockBase = .entryBlock node' := by
    intro data size tokenval bytoken
    simp only [ummuUngrantData, hb]
    by_cases hsize : size = 0
    · rw [if_pos hsize]
      exact hself
    rw [if_neg hsize]
    by_cases hop : ummuEntryUngrantParamCheck node (ungrantDataInfo data size tokenval bytoken) =
        .opEnd
    · rw [if_pos hop]
      exact hself
    · rw [if_neg hop]
      exact ⟨_, rfl⟩
  cases call with
  | grant a env =>
    simp only [ApiCall.run, ummuGrant, hb]
    cases a.segAttr with
    | none => exact hself
    | some seg =>
      simp only
      split_ifs
      · exact hself
      · cases ummuPermDataPreproc a seg env.random with
        | none => exact hself
        | some d =>
          simp only
          by_cases hop : ummuEntryParamCheck node d = .opEnd
          · rw [if_pos hop]
            exact hself
          · rw [if_neg hop]
            exact ⟨_, rfl⟩
  | ungrant data size => exact hungrant data size 0 false
  | ungrantByToken data size tokenVal => exact hungrant data size tokenVal true

/-- The invariant holds in every state of a tid whose record allocations succeed. -/
theorem tidReach_inv {info : MaptInfo}
    (h : TidReach y (fun _ call => call.RecordAlloc) info) : TidInv y info := by
  refine h.invariant (fun info h => ?_) (fun info info' hinv hnext => ?_)
  · rcases tidStart_base h with ⟨node, hb, _⟩ | ⟨c, hb, htable⟩
    · exact Or.inl ⟨node, hb⟩
    · exact Or.inr ⟨c, [], _, hb, htable⟩
  · obtain ⟨call, hfresh, hrecord, rfl⟩ := hnext
    rcases hinv with ⟨node, hb⟩ | ⟨c, t, sub, hb, htable⟩
    · exact Or.inl (entry_call hb call)
    · exact (call_outcome hb htable hfresh hrecord).inv hb htable

/-- The invariant of a table-mode tid. -/
theorem tidReach_table {info : MaptInfo} {c : TableCtx} {o : Option RangeTable}
    (h : TidReach y (fun _ call => call.RecordAlloc) info) (hb : info.blockBase = .tableCtx c o) :
    ∃ t sub, o = some t ∧ TableInv y c t sub := by
  rcases tidReach_inv h with ⟨node, hn⟩ | ⟨c', t, sub, hn, htable⟩
  · rw [hn] at hb
    cases hb
  · rw [hn] at hb
    cases hb
    exact ⟨t, sub, rfl, htable⟩

/-- A grant of the first page, without a token. -/
def pageGrant : ApiCall := .grant ⟨0, 0x1000, maptPermRW, some ⟨none, 0⟩⟩ ⟨[], true, none, 0⟩

lemma pageGrant_reach {n : TableNode} (hv : n.valid = false) (hn : y → n.nonce = 0) :
    TidReach y (fun _ call => call.RecordAlloc) (pageGrant.run (newTid n)).info := by
  have hfresh : pageGrant.Fresh y := fun mem hmem => by cases hmem
  exact .step (.start (newTid_start hv hn)) ⟨pageGrant, hfresh, rfl, rfl⟩

end Outcome

end Ummu
