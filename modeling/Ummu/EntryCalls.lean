import Ummu.TidCalls

/-!
# Calls on an entry-mode tid

The entry node is check and record at once: what its checks let through, and what the operation on
it leaves.
-/

namespace Ummu

/-- The data that an ungrant call hands to the operation on the entry node. -/
def entryUngrantData (node : EntryNode) (data size : BitVec 64) (tokenval : BitVec 32)
    (bytoken : Bool) : Option DataInfo :=
  let d := ungrantDataInfo data size tokenval bytoken
  if size = 0 ∨ ummuEntryUngrantParamCheck node d = .opEnd then none
  else some { d with op := ummuEntryUngrantParamCheck node d }

/-- The data that a grant hands to the operation on the entry node. -/
def entryGrantData (node : EntryNode) (a : GrantArgs) (random : Option (BitVec 32)) :
    Option DataInfo :=
  a.segAttr.bind (fun seg =>
    if ummuCheckData a.data a.dataSize a.perm seg.eBit .entry = false then none
    else (ummuPermDataPreproc a seg random).bind (fun d =>
      if ummuEntryParamCheck node d = .opEnd then none
      else some { d with op := ummuEntryParamCheck node d }))

/-- The data with which a call on an entry-mode tid comes to the operation on the entry node, unless
the call is refused. -/
def ApiCall.entryData (node : EntryNode) : ApiCall → Option DataInfo
  | .grant a env => entryGrantData node a env.random
  | .ungrant data size => entryUngrantData node data size 0 false
  | .ungrantByToken data size tokenVal => entryUngrantData node data size tokenVal true

/-- What a call on an entry-mode tid does. -/
inductive EntryRunsAs (info : MaptInfo) (node : EntryNode) (call : ApiCall) : CallResult → Prop where
  | refused (hdata : call.entryData node = none) :
      EntryRunsAs info node call (.failed info call.refusal)
  | entry {d : DataInfo} {plbi : List PlbiRange} (hdata : call.entryData node = some d) :
      EntryRunsAs info node call
        ⟨(ummuEntryOp node d).1, { info with blockBase := .entryBlock (ummuEntryOp node d).2 }, plbi,
          []⟩

section Entry

variable {info : MaptInfo} {node : EntryNode} {d : DataInfo}

lemma entryUngrant_runsAs (hb : info.blockBase = .entryBlock node) {data size : BitVec 64}
    {tokenval : BitVec 32} {bytoken : Bool} {call : ApiCall}
    (hrun : call.run info = ummuUngrantData info data size tokenval bytoken)
    (hdata : call.entryData node = entryUngrantData node data size tokenval bytoken)
    (hrefusal : call.refusal = if size = 0 then -enomem else -einval) :
    EntryRunsAs info node call (call.run info) := by
  rw [hrun]
  simp only [ummuUngrantData, hb]
  by_cases hsize : size = 0
  · rw [if_pos hsize] at hrefusal ⊢
    rw [← hrefusal]
    exact .refused (hdata.trans (if_pos (Or.inl hsize)))
  rw [if_neg hsize] at hrefusal ⊢
  by_cases hop : ummuEntryUngrantParamCheck node (ungrantDataInfo data size tokenval bytoken) =
      .opEnd
  · rw [if_pos hop, ← hrefusal]
    exact .refused (hdata.trans (if_pos (Or.inr hop)))
  · rw [if_neg hop]
    refine .entry (hdata.trans (if_neg ?_))
    exact fun h => h.elim hsize hop

theorem run_entryRunsAs (hb : info.blockBase = .entryBlock node) (call : ApiCall) :
    EntryRunsAs info node call (call.run info) := by
  cases call with
  | ungrant data size => exact entryUngrant_runsAs hb rfl rfl rfl
  | ungrantByToken data size tokenVal => exact entryUngrant_runsAs hb rfl rfl rfl
  | grant a env =>
    have hmode : info.mode = .entry := by rw [MaptInfo.mode, hb]
    have hdata : (ApiCall.grant a env).entryData node = entryGrantData node a env.random := rfl
    unfold entryGrantData at hdata
    simp only [ApiCall.run, ummuGrant]
    cases hseg : a.segAttr with
    | none =>
      rw [hseg] at hdata
      exact .refused hdata
    | some seg =>
      rw [hseg, Option.bind_some] at hdata
      simp only [hmode]
      by_cases hcheck : ummuCheckData a.data a.dataSize a.perm seg.eBit .entry = false
      · rw [if_pos hcheck] at hdata ⊢
        exact .refused hdata
      rw [if_neg hcheck] at hdata ⊢
      cases hpre : ummuPermDataPreproc a seg env.random with
      | none =>
        rw [hpre] at hdata
        exact .refused hdata
      | some d =>
        rw [hpre, Option.bind_some] at hdata
        simp only [hb]
        by_cases hop : ummuEntryParamCheck node d = .opEnd
        · rw [if_pos hop] at hdata ⊢
          exact .refused hdata
        · rw [if_neg hop] at hdata ⊢
          exact .entry hdata

/-- What `ummu_grant_check` lets through in entry mode. -/
lemma entryParamCheck_cases {op : GrantOpType} (h : ummuEntryParamCheck node d = op) :
    op = .opEnd ∨ (op = .grant ∧ node.valid = false) ∨
      (op = .addToken ∧ node.valid = true ∧ node.base = d.dataBase ∧ node.limit = d.dataLimit ∧
        node.tokenCheck = true ∧ d.tokenCheck = true ∧ node.nonce = 1) := by
  unfold ummuEntryParamCheck at h
  by_cases hv : node.valid = false
  · rw [if_pos hv] at h
    exact Or.inr (Or.inl ⟨h.symm, hv⟩)
  rw [if_neg hv] at h
  rw [Bool.not_eq_false] at hv
  by_cases hc : node.base = d.dataBase ∧ node.limit = d.dataLimit ∧
      (node.tokenCheck = true ∧ d.tokenCheck = true) ∧
      node.permission.toNat = d.perm.toNat ∧ node.eBit.toNat = d.eBit.toNat ∧ node.nonce = 1
  · rw [if_pos hc] at h
    obtain ⟨h1, h2, ⟨h3, h4⟩, _, _, h5⟩ := hc
    exact Or.inr (Or.inr ⟨h.symm, hv, h1, h2, h3, h4, h5⟩)
  · rw [if_neg hc] at h
    exact Or.inl h.symm

/-- What `ummu_ungrant_check` lets through in entry mode. -/
lemma entryUngrantParamCheck_cases {op : GrantOpType}
    (h : ummuEntryUngrantParamCheck node d = op) :
    op = .opEnd ∨
      (node.valid = true ∧ node.base = d.dataBase ∧ node.limit = d.dataLimit ∧
        (op = .ungrant ∨ (op = .removeToken ∧ node.tokenCheck = true ∧ node.nonce = 2 ∧
          (node.tokenVal0 = d.tokenVal ∨ node.tokenVal1 = d.tokenVal)))) := by
  unfold ummuEntryUngrantParamCheck at h
  subst h
  split_ifs with h1 h2 h3 h4 h5 h6 h7
  · exact Or.inl rfl
  · exact Or.inl rfl
  all_goals
    rw [Bool.not_eq_false] at h1
    push Not at h2
  · exact Or.inr ⟨h1, h2.1, h2.2, Or.inl rfl⟩
  · exact Or.inl rfl
  · exact Or.inr ⟨h1, h2.1, h2.2, Or.inl rfl⟩
  · refine Or.inr ⟨h1, h2.1, h2.2, Or.inr ⟨rfl, h4, h7, ?_⟩⟩
    by_contra hne
    push Not at hne
    exact h5 hne
  · exact Or.inl rfl
  · exact Or.inl rfl

/-- The two fields of an address of the entry node hold its low 48 bits. -/
lemma addrFull_entryAddr (x : Nat) :
    addrFull (entryAddrLow x) (entryAddrHigh x) = x % 2 ^ 48 := by
  have h1 : genmaskUll 31 0 = 2 ^ 32 - 1 := by decide
  have h2 : genmaskUll 47 32 >>> 32 = 2 ^ 16 - 1 := by decide
  rw [addrFull_toNat, entryAddrLow, entryAddrHigh, h1, Nat.shiftRight_and_distrib, h2,
    Nat.and_two_pow_sub_one_eq_mod, Nat.and_two_pow_sub_one_eq_mod, Nat.shiftRight_eq_div_pow,
    BitVec.toNat_ofNat, BitVec.toNat_ofNat]
  omega

end Entry

end Ummu
