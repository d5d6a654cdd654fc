import Ummu.Leases

/-!
# The API refines the store of leases

Every call on a tid is a request to the store, in table mode and in entry mode, and what the device
finds for an address is the lease that the store holds there.
-/

namespace Ummu

open Lib LeaseStore Machine Cell

section Table

variable {y : Prop} {info : MaptInfo} {c : TableCtx} {t t' : RangeTable} {sub : SegBlock 3}
  {call : ApiCall} {d : DataInfo} {e : Range × SegInfo} {s : SegInfo} {S S' : PermStore}

lemma Segs.leased (h : Segs t) : Leased t := ⟨h.apart, fun e he => (h.ok e he).tokens⟩

lemma SegOf.key (h : SegOf d e) : e.1 = d.key := by
  rw [DataInfo.key, h.base, h.limit]

/-- The data of a table operation with the request and the check that it comes from. -/
lemma data_request (h : call.data t = some d) :
    (call.request .table = some d.grantRequest ∧ ummuTableGrantCheck (some t) d = d.op) ∨
      (call.request .table = some d.ungrantRequest ∧ ummuTableUngrantCheck (some t) d = d.op) := by
  have hungrant : ∀ data size tokenval bytoken, ungrantData t data size tokenval bytoken = some d →
      some (ungrantDataInfo data size tokenval bytoken).ungrantRequest = some d.ungrantRequest ∧
        ummuTableUngrantCheck (some t) d = d.op := by
    intro data size tokenval bytoken hdata
    unfold ungrantData at hdata
    simp only at hdata
    by_cases hcond : size = 0 ∨ alignVpageShiftCheck data = false ∨
        ummuTableUngrantCheck (some t) (ungrantDataInfo data size tokenval bytoken) = .opEnd
    · rw [if_pos hcond] at hdata
      cases hdata
    · rw [if_neg hcond] at hdata
      obtain rfl := Option.some.inj hdata
      exact ⟨rfl, rfl⟩
  cases call with
  | ungrant data size => exact Or.inr (hungrant _ _ _ _ h)
  | ungrantByToken data size tokenVal => exact Or.inr (hungrant _ _ _ _ h)
  | grant a env =>
    obtain ⟨seg, hseg, h⟩ := Option.bind_eq_some_iff.mp h
    by_cases hcheck : ummuCheckData a.data a.dataSize a.perm seg.eBit .table = false
    · rw [if_pos hcheck] at h
      cases h
    rw [if_neg hcheck] at h
    obtain ⟨d₀, hpre, h⟩ := Option.bind_eq_some_iff.mp h
    by_cases hend : ummuTableGrantCheck (some t) d₀ = .opEnd
    · rw [if_pos hend] at h
      cases h
    · rw [if_neg hend] at h
      obtain rfl := Option.some.inj h
      refine Or.inl ⟨?_, rfl⟩
      rw [ApiCall.request, hseg, Option.bind_some, if_neg hcheck, hpre]
      rfl

/-- The check of a token operation is the one on the record. -/
lemma grantCheck_record (hs : Segs t) (he : e ∈ t) (hd : SegOf d e) :
    ummuTableGrantCheck (some t) d = ummuTableParamCheck e.2 d := by
  have hfind := findSeg_of_mem hs.apart he hd.range
  simp only [ummuTableGrantCheck, hfind]

lemma ungrantCheck_record (hs : Segs t) (he : e ∈ t) (hd : SegOf d e) :
    ummuTableUngrantCheck (some t) d = ummuUngrantParamCheck e.2 d := by
  have hfind := findSeg_of_mem hs.apart he hd.range
  simp only [ummuTableUngrantCheck, hfind]

lemma ungrantCheck_not_grant : ummuTableUngrantCheck (some t) d ≠ .grant := by
  intro h
  rcases @ungrantCheck_cases t d with hop | ⟨e, _, _, hop⟩
  · rw [h] at hop
    cases hop
  · rw [h] at hop
    rcases ungrantParamCheck_cases hop.symm with hop | hop | ⟨hop, _⟩ <;> cases hop

lemma changed_insert {k : Range} (hk : ∀ s, (k, s) ∉ t) (h : ∀ f, f ∈ t' ↔ f = (k, s) ∨ f ∈ t) :
    KeyChanged t t' k (some s) := by
  rintro ⟨k', s'⟩
  rw [h, Prod.mk.injEq, Option.some_inj]
  by_cases hne : k' = k
  · subst hne
    simp [hk s', eq_comm]
  · simp [hne]

/-- Two records of one key are the same. -/
lemma Apart.key_iff (h : Apart t) (he : e ∈ t) {f : Range × SegInfo} :
    f ∈ t ∧ f ≠ e ↔ f.1 ≠ e.1 ∧ f ∈ t := by
  constructor
  · rintro ⟨hf, hne⟩
    refine ⟨fun hkey => hne ?_, hf⟩
    have hle := h.le e he
    exact h.unique he hf (by rwa [hkey]) (by rwa [hkey])
  · rintro ⟨hne, hf⟩
    exact ⟨hf, fun hfe => hne (congrArg Prod.fst hfe)⟩

lemma changed_modify (ht : Apart t) (he : e ∈ t)
    (h : ∀ f, f ∈ t' ↔ f = (e.1, s) ∨ (f ∈ t ∧ f ≠ e)) : KeyChanged t t' e.1 (some s) := by
  rintro ⟨k', s'⟩
  rw [h, ht.key_iff he, Prod.mk.injEq, Option.some_inj, @eq_comm _ s']

lemma changed_erase (ht : Apart t) (he : e ∈ t) (h : ∀ f, f ∈ t' ↔ f ∈ t ∧ f ≠ e) :
    KeyChanged t t' e.1 none := by
  intro f
  rw [h, ht.key_iff he]
  simp

/-- A refused call on a table-mode tid is a refused request. -/
lemma table_refused (hs : Segs t) (hS : Stands S t) (h : call.data t = none) {r : PermRequest}
    (hr : call.request .table = some r) : S.Step r false S := by
  have hungrant : ∀ data size tokenval bytoken, ungrantData t data size tokenval bytoken = none →
      S.Step (ungrantDataInfo data size tokenval bytoken).ungrantRequest false S := by
    intro data size tokenval bytoken hdata
    apply step_missed hS hs.leased
    intro s hmem
    have hok := hs.ok _ hmem
    have hle := hok.le
    have hlt := hok.lt
    simp only [DataInfo.key, ungrantDataInfo] at hle hlt
    have hsize : size ≠ 0 := by
      rintro rfl
      bv_omega
    have hrange : (ungrantDataInfo data size tokenval bytoken).key =
        Range.ofSize data.toNat (size.toNat - 1) := by
      simp only [DataInfo.key, ungrantDataInfo, Range.ofSize, Range.mk.injEq, true_and]
      bv_omega
    have hseg := ungrant_segOf tokenval bytoken hs hmem hsize hrange .opEnd
    have halign : alignVpageShiftCheck data = true := alignVpageShiftCheck_iff.mpr hok.page
    have hsame : ummuTableUngrantCheck (some t) (ungrantDataInfo data size tokenval bytoken) =
        ummuUngrantParamCheck s (ungrantDataInfo data size tokenval bytoken) :=
      ungrantCheck_record hs hmem ⟨hseg.range, hseg.size, hseg.limit⟩
    rw [← hsame]
    unfold ungrantData at hdata
    by_contra hop
    rw [if_neg] at hdata
    · cases hdata
    · rintro (h | h | h)
      · exact hsize h
      · rw [halign] at h
        cases h
      · exact hop h
  cases call with
  | ungrant data size =>
    obtain rfl := Option.some.inj hr
    exact hungrant _ _ _ _ h
  | ungrantByToken data size tokenVal =>
    obtain rfl := Option.some.inj hr
    exact hungrant _ _ _ _ h
  | grant a env =>
    obtain ⟨seg, hseg, hr⟩ := Option.bind_eq_some_iff.mp hr
    by_cases hcheck : ummuCheckData a.data a.dataSize a.perm seg.eBit .table = false
    · rw [if_pos hcheck] at hr
      cases hr
    rw [if_neg hcheck] at hr
    obtain ⟨d₀, hpre, rfl⟩ := Option.map_eq_some_iff.mp hr
    have hend : ummuTableGrantCheck (some t) d₀ = .opEnd := by
      by_contra hne
      have hdata : grantData t a env.random = none := h
      rw [grantData, hseg, Option.bind_some, if_neg hcheck, hpre, Option.bind_some,
        if_neg hne] at hdata
      cases hdata
    rw [Bool.not_eq_false] at hcheck
    obtain ⟨hok, hsize⟩ := preproc_ok hcheck hpre d₀.op
    apply step_refused hS hs.leased
    · rintro rfl
      cases hend
    · intro s hmem
      have hd : SegOf d₀ (d₀.key, s) := ⟨hok.range.symm, hsize, rfl⟩
      rw [← grantCheck_record hs hmem hd, hend]

/-- A call on a table-mode tid is a request to the store. -/
theorem table_step (hb : info.blockBase = .tableCtx c (some t)) (h : TableInv y c t sub)
    (hfresh : call.Fresh y) (hrecord : call.RecordAlloc) :
    ∃ c' t' sub', (call.run info).info.blockBase = .tableCtx c' (some t') ∧ TableInv y c' t' sub' ∧
      ∀ S S', Stands S t → Stands S' t' → ∀ r, call.request .table = some r →
        S.Step r (decide ((call.run info).ret = 0)) S' := by
  have hmaps := hfresh.maps
  have hruns := run_runsAs hb call
  generalize call.run info = res at hruns ⊢
  cases hruns with
  | refused hdata =>
    refine ⟨c, t, sub, hb, h, fun S S' hS hS' r hr => ?_⟩
    rw [hS.unique hS', CallResult.failed, decide_eq_false call.refusal_ne]
    exact table_refused h.segs hS hdata hr
  | @table d opRet ret m t' plbi hdata hrun =>
    rw [hrecord.eq] at hrun
    have hrequest := data_request hdata
    cases data_accepted h.segs hdata with
    | grant hop hd hfree =>
      rw [hop] at hrequest
      have hreq := (hrequest.resolve_right (fun hreq => ungrantCheck_not_grant hreq.2)).1
      rcases tableCall_grant h hmaps hd hop hfree with
        ⟨m, t', sub', hgo, hinv, hmem, _⟩ | ⟨code, m, hgo, hcode, hsome, hinv, _⟩
      · obtain ⟨rfl, rfl, rfl, rfl⟩ := by simpa using hrun.symm.trans hgo
        refine ⟨_, t', sub', rfl, hinv, fun S S' hS hS' r hr => ?_⟩
        obtain rfl := Option.some.inj (hreq.symm.trans hr)
        have hnew : ∀ s, (d.key, s) ∉ t := by
          intro s hs
          have hle := h.segs.apart.le _ hs
          rcases hfree _ hs with hlt | hlt
          · exact absurd hle (not_le.mpr hlt)
          · exact absurd hle (not_le.mpr hlt)
        exact step_granted hS hS' hfree rfl (changed_insert hnew hmem)
      · obtain ⟨rfl, rfl, rfl, rfl⟩ := by simpa using hrun.symm.trans hgo
        refine ⟨_, t, sub, rfl, hinv, fun S S' hS hS' r hr => ?_⟩
        obtain rfl := Option.some.inj (hreq.symm.trans hr)
        rw [hS.unique hS', decide_eq_false hcode]
        exact .noRoom (hS.free hfree) (hS.held hsome)
    | @token e he hd hready hcount =>
      obtain ⟨m, t', sub', hgo, hinv, hmem, _⟩ := tableCall_token h hmaps he hd hready
      obtain ⟨rfl, rfl, rfl, rfl⟩ := by simpa using hrun.symm.trans hgo
      refine ⟨_, t', sub', rfl, hinv, fun S S' hS hS' r hr => ?_⟩
      have hchanged := changed_modify h.segs.apart he hmem
      have he' : (d.key, e.2) ∈ t := hd.key ▸ he
      rw [hd.key] at hchanged
      rw [grantCheck_record h.segs he hd, ungrantCheck_record h.segs he hd] at hrequest
      rcases hready.2 with ⟨hop, _⟩ | ⟨hop, _⟩
      · rw [hop] at hrequest
        have hself : { d with op := .addToken } = d := by rw [← hop]
        rcases hrequest with ⟨hreq, hcheck⟩ | ⟨hreq, hcheck⟩
        · obtain rfl := Option.some.inj (hreq.symm.trans hr)
          exact step_addToken hS hS' he' hcheck (hself.symm ▸ hchanged)
        · rcases ungrantParamCheck_cases hcheck with hop | hop | ⟨hop, _⟩ <;> cases hop
      · rw [hop] at hrequest
        have hself : { d with op := .removeToken } = d := by rw [← hop]
        rcases hrequest with ⟨hreq, hcheck⟩ | ⟨hreq, hcheck⟩
        · rcases paramCheck_add hcheck with hop | ⟨hop, _⟩ <;> cases hop
        · obtain rfl := Option.some.inj (hreq.symm.trans hr)
          exact step_removeToken hS hS' h.segs.leased he' hcheck (hself.symm ▸ hchanged)
    | @ungrant e hop he hd =>
      obtain ⟨m, t', sub', hgo, hinv, hmem, _⟩ := tableCall_ungrant h hmaps he hd hop
      obtain ⟨rfl, rfl, rfl, rfl⟩ := by simpa using hrun.symm.trans hgo
      refine ⟨_, t', sub', rfl, hinv, fun S S' hS hS' r hr => ?_⟩
      have hchanged := changed_erase h.segs.apart he hmem
      have he' : (d.key, e.2) ∈ t := hd.key ▸ he
      rw [hd.key] at hchanged
      rw [hop, grantCheck_record h.segs he hd, ungrantCheck_record h.segs he hd] at hrequest
      rcases hrequest with ⟨hreq, hcheck⟩ | ⟨hreq, hcheck⟩
      · rcases paramCheck_add hcheck with hop | ⟨hop, _⟩ <;> cases hop
      · obtain rfl := Option.some.inj (hreq.symm.trans hr)
        exact step_ungrant hS hS' h.segs.leased he' hcheck hchanged

end Table

/-- The entry node as the record of its segment. -/
def EntryNode.seg (n : EntryNode) : SegInfo where
  startAddr := n.base
  grantSize := n.limit + 1 - n.base
  permission := n.permission.setWidth 32
  eBit := BitVec.ofNat 32 n.eBit.toNat
  tokenCheck := n.tokenCheck
  tokenCount := n.nonce.setWidth 8
  tokenVal0 := n.tokenVal0
  tokenVal1 := n.tokenVal1

def EntryNode.key (n : EntryNode) : Range := ⟨n.base, n.limit⟩

/-- The range table that an entry node stands for. -/
def EntryNode.segs (n : EntryNode) : RangeTable := if n.valid then [(n.key, n.seg)] else []

/-- The invariant of the entry node. -/
structure EntryOk (n : EntryNode) : Prop where
  tokens : n.valid = true → n.seg.TokensOk
  le : n.valid = true → n.base ≤ n.limit
  nonce : n.valid = false → n.nonce = 0

section Entry

variable {info : MaptInfo} {node : EntryNode} {call : ApiCall} {d : DataInfo} {S S' : PermStore}

lemma segs_valid (h : node.valid = true) : node.segs = [(node.key, node.seg)] := if_pos h

lemma segs_invalid (h : node.valid = false) : node.segs = [] := by
  rw [EntryNode.segs, h]
  rfl

lemma segs_mem {k : Range} {s : SegInfo} :
    (k, s) ∈ node.segs ↔ node.valid = true ∧ k = node.key ∧ s = node.seg := by
  by_cases hv : node.valid = true
  · rw [segs_valid hv, List.mem_singleton, Prod.mk.injEq]
    simp [hv]
  · rw [segs_invalid (by simpa using hv)]
    simp [hv]

lemma EntryNode.limit_lt (n : EntryNode) : n.limit < 2 ^ 48 := by
  have h1 := n.limitLow.isLt
  have h2 := n.limitHigh.isLt
  rw [EntryNode.limit, addrFull_toNat]
  omega

lemma EntryOk.leased (h : EntryOk node) : Leased node.segs := by
  by_cases hv : node.valid = true
  · rw [segs_valid hv]
    have hmem : ∀ e ∈ [(node.key, node.seg)], e = (node.key, node.seg) := fun e he =>
      List.mem_singleton.mp he
    refine ⟨⟨List.pairwise_singleton .., fun e he => ?_, fun e he => ?_⟩, fun e he => ?_⟩
    · rw [hmem e he]
      exact h.le hv
    · rw [hmem e he]
      exact node.limit_lt
    · rw [hmem e he]
      exact h.tokens hv
  · rw [segs_invalid (by simpa using hv)]
    have hmem : ∀ e : Range × SegInfo, e ∉ ([] : RangeTable) := fun e => List.not_mem_nil
    exact ⟨⟨List.Pairwise.nil, fun e he => (hmem e he).elim, fun e he => (hmem e he).elim⟩,
      fun e he => (hmem e he).elim⟩

lemma seg_permission : node.seg.permission.toNat = node.permission.toNat := by
  have := node.permission.isLt
  rw [EntryNode.seg, BitVec.toNat_setWidth, Nat.mod_eq_of_lt]
  omega

lemma seg_eBit : node.seg.eBit.toNat = node.eBit.toNat := by
  unfold EntryNode.seg
  cases node.eBit <;> rfl

lemma seg_tokenCount : node.seg.tokenCount.toNat = node.nonce.toNat := by
  have := node.nonce.isLt
  rw [EntryNode.seg, BitVec.toNat_setWidth, Nat.mod_eq_of_lt]
  omega

lemma seg_lease : node.seg.lease = node.lease := by
  unfold SegInfo.lease EntryNode.lease
  rw [seg_permission, seg_eBit, seg_tokenCount]
  rfl

/-- The check of a grant is the one on the record, where the ranges are the same. -/
lemma entryParamCheck_seg (hv : node.valid = true) (d : DataInfo) :
    ummuEntryParamCheck node d =
      if node.key = d.key then ummuTableParamCheck node.seg d else .opEnd := by
  have hnonce : node.nonce = 1 ↔ node.seg.tokenCount = 1 :=
    toNat_eq_iff seg_tokenCount.symm (by decide) (by decide)
  have hperm : node.permission.toNat = d.perm.toNat ↔ node.seg.permission = d.perm := by
    rw [← seg_permission, BitVec.toNat_inj]
  have hebit : node.eBit.toNat = d.eBit.toNat ↔ node.seg.eBit = d.eBit := by
    rw [← seg_eBit, BitVec.toNat_inj]
  have hinv : ¬node.valid = false := by simp [hv]
  rw [ummuEntryParamCheck, if_neg hinv, EntryNode.key, DataInfo.key]
  simp only [Range.mk.injEq, hnonce, hperm, hebit]
  by_cases hkey : node.base = d.dataBase ∧ node.limit = d.dataLimit
  · rw [if_pos hkey, ummuTableParamCheck]
    simp only [hkey, true_and]
    rfl
  · rw [if_neg hkey, if_neg]
    exact fun h => hkey ⟨h.1, h.2.1⟩

/-- The check of an ungrant is the one on the record, where the ranges are the same. -/
lemma entryUngrantParamCheck_seg (hv : node.valid = true) (d : DataInfo) :
    ummuEntryUngrantParamCheck node d =
      if node.key = d.key then ummuUngrantParamCheck node.seg d else .opEnd := by
  have hone : node.nonce = 1 ↔ node.seg.tokenCount = 1 :=
    toNat_eq_iff seg_tokenCount.symm (by decide) (by decide)
  have htwo : node.nonce = BitVec.ofNat 2 ummuMaxTokenNum ↔
      node.seg.tokenCount = BitVec.ofNat 8 ummuMaxTokenNum :=
    toNat_eq_iff seg_tokenCount.symm (by decide) (by decide)
  have hinv : ¬node.valid = false := by simp [hv]
  rw [ummuEntryUngrantParamCheck, if_neg hinv, EntryNode.key, DataInfo.key]
  simp only [Range.mk.injEq, hone, htwo]
  by_cases hkey : node.base = d.dataBase ∧ node.limit = d.dataLimit
  · have hne : ¬(node.base ≠ d.dataBase ∨ node.limit ≠ d.dataLimit) := by
      rw [hkey.1, hkey.2]
      simp
    rw [if_pos hkey, if_neg hne, ummuUngrantParamCheck]
    by_cases htc : node.tokenCheck = true
    · have hseg : ¬node.seg.tokenCheck = false := by simp [EntryNode.seg, htc]
      rw [if_pos htc, if_neg hseg]
      by_cases hval : node.tokenVal0 = d.tokenVal ∨ node.tokenVal1 = d.tokenVal
      · have hsome : ¬(node.tokenVal0 ≠ d.tokenVal ∧ node.tokenVal1 ≠ d.tokenVal) :=
          fun hne => hval.elim hne.1 hne.2
        have hseg : node.seg.tokenVal0 = d.tokenVal ∨ node.seg.tokenVal1 = d.tokenVal := hval
        rw [if_neg hsome, if_pos hseg]
      · have hseg : ¬(node.seg.tokenVal0 = d.tokenVal ∨ node.seg.tokenVal1 = d.tokenVal) := hval
        rw [if_pos (not_or.mp hval), if_neg hseg]
    · have hseg : node.seg.tokenCheck = false := by simpa [EntryNode.seg] using htc
      rw [if_neg htc, if_pos hseg]
  · rw [if_neg hkey, if_pos]
    by_contra hne
    push Not at hne
    exact hkey hne

/-- The operations on the entry node change the record of its range. -/
lemma entry_changed {node' : EntryNode} {k : Range} (h : node.valid = true → node.key = k)
    (h' : node'.valid = true → node'.key = k) :
    KeyChanged node.segs node'.segs k (if node'.valid then some node'.seg else none) := by
  rintro ⟨k', s⟩
  have hold : ¬(k' ≠ k ∧ (k', s) ∈ node.segs) := by
    rintro ⟨hne, hmem⟩
    obtain ⟨hv, rfl, _⟩ := segs_mem.mp hmem
    exact hne (h hv)
  rw [or_iff_left hold, segs_mem]
  by_cases hv : node'.valid = true
  · rw [if_pos hv, Option.some_inj, h' hv, @eq_comm _ s]
    exact and_iff_right hv
  · rw [if_neg hv]
    exact ⟨fun hs => (hv hs.1).elim, fun hs => (Option.some_ne_none s hs.2.symm).elim⟩

/-- A grant fills the entry node with its segment. -/
lemma fill_seg (hlt : d.dataLimit < 2 ^ 48) (hle : d.dataBase ≤ d.dataLimit)
    (hperm : d.perm.toNat < 2 ^ 6) (hebit : d.eBit.toNat < 2) (hn : node.nonce = 0) :
    EntryOk (ummuEntryFillNode node d) ∧ (ummuEntryFillNode node d).valid = true ∧
      (ummuEntryFillNode node d).key = d.key ∧
      (ummuEntryFillNode node d).seg.lease = (newSegInfo d).lease := by
  have hbase : addrFull (entryAddrLow d.dataBase) (entryAddrHigh d.dataBase) = d.dataBase := by
    rw [addrFull_entryAddr, Nat.mod_eq_of_lt (lt_of_le_of_lt hle hlt)]
  have hlimit : addrFull (entryAddrLow d.dataLimit) (entryAddrHigh d.dataLimit) = d.dataLimit := by
    rw [addrFull_entryAddr, Nat.mod_eq_of_lt hlt]
  have hattrs : ((d.perm.setWidth 6).toNat, (d.eBit.getLsbD 0).toNat) = d.attrs := by
    rw [BitVec.toNat_setWidth, Nat.mod_eq_of_lt hperm, toNat_lsb _ hebit]
    rfl
  rw [newSegInfo_lease, seg_lease, EntryNode.lease]
  unfold ummuEntryFillNode DataInfo.token
  by_cases htc : d.tokenCheck = true
  · simp only [htc, if_true]
    refine ⟨⟨fun _ => Or.inr (Or.inl ⟨rfl, rfl, rfl⟩), fun _ => ?_, fun h => by cases h⟩,
      trivial, ?_, ?_⟩
    · rwa [EntryNode.base, EntryNode.limit, hbase, hlimit]
    · rw [EntryNode.key, EntryNode.base, EntryNode.limit, hbase, hlimit]
      rfl
    · rw [hattrs]
      rfl
  · rw [Bool.not_eq_true] at htc
    simp only [htc, Bool.false_eq_true, if_false]
    refine ⟨⟨fun _ => Or.inl ⟨rfl, ?_⟩, fun _ => ?_, fun h => by cases h⟩, trivial, ?_, ?_⟩
    · show node.nonce.setWidth 8 = 0
      rw [hn]
      rfl
    · rwa [EntryNode.base, EntryNode.limit, hbase, hlimit]
    · rw [EntryNode.key, EntryNode.base, EntryNode.limit, hbase, hlimit]
      rfl
    · rw [hattrs]
      rfl

/-- A token operation on the entry node changes its record as in table mode. -/
lemma update_seg (hv : node.valid = true) (hready : TokenReady d node.seg) :
    (ummuEntryOp node d).1 = 0 ∧ (ummuEntryOp node d).2.valid = true ∧
      (ummuEntryOp node d).2.key = node.key ∧
      (ummuEntryOp node d).2.seg = tokenRecord d node.seg := by
  obtain ⟨_, ⟨hop, hcount⟩ | ⟨hop, hval⟩⟩ := hready
  · have hnonce : node.nonce = 1 :=
      (toNat_eq_iff (k := 1) seg_tokenCount.symm (by decide) (by decide)).mpr hcount
    rw [tokenRecord_add hop]
    simp only [ummuEntryOp, hop, ummuEntryUpdateToken]
    rw [if_pos ⟨hv, hnonce⟩]
    exact ⟨rfl, hv, rfl, rfl⟩
  · rw [tokenRecord, if_pos hop, ummuRemoveTokenval]
    simp only [ummuEntryOp, hop, ummuEntryUpdateToken]
    by_cases hfirst : node.tokenVal0 = d.tokenVal
    · have hseg : node.seg.tokenVal0 = d.tokenVal := hfirst
      rw [if_pos hfirst, if_pos hseg]
      exact ⟨rfl, hv, rfl, rfl⟩
    · have hseg : ¬node.seg.tokenVal0 = d.tokenVal := hfirst
      have hsecond := hval.resolve_left hseg
      have hsecond' : node.tokenVal1 = d.tokenVal := hsecond
      rw [if_neg hfirst, if_neg hseg, if_pos hsecond, if_pos hsecond']
      exact ⟨rfl, hv, rfl, rfl⟩

lemma update_changed (hok : EntryOk node) (hv : node.valid = true) (hready : TokenReady d node.seg)
    (hkey : node.key = d.key) :
    (ummuEntryOp node d).1 = 0 ∧ EntryOk (ummuEntryOp node d).2 ∧
      KeyChanged node.segs (ummuEntryOp node d).2.segs d.key (some (tokenRecord d node.seg)) := by
  obtain ⟨hret, hv', hkey', hseg⟩ := update_seg hv hready
  have hchanged := entry_changed (fun _ => hkey) (fun _ => hkey'.trans hkey)
  rw [if_pos hv', hseg] at hchanged
  obtain ⟨hbase, hlimit⟩ := Range.mk.inj hkey'
  refine ⟨hret, ⟨fun _ => ?_, fun _ => ?_, fun h => ?_⟩, hchanged⟩
  · rw [hseg]
    exact tokenRecord_tokensOk hready
  · rw [hbase, hlimit]
    exact hok.le hv
  · rw [hv'] at h
    cases h

/-- What the argument checks of a grant leave in either mode. -/
lemma preproc_range_ok {mode : MaptMode} {a : GrantArgs} {seg : SegAttr}
    {random : Option (BitVec 32)}
    (hcheck : ummuCheckData a.data a.dataSize a.perm seg.eBit mode = true)
    (h : ummuPermDataPreproc a seg random = some d) :
    d.dataLimit < 2 ^ 48 ∧ d.dataBase ≤ d.dataLimit ∧ d.perm.toNat < 2 ^ 6 ∧ d.eBit.toNat < 2 := by
  obtain ⟨_, hlt, hlimit, _, hperm, hebit⟩ := checkData_ok hcheck
  unfold ummuPermDataPreproc at h
  obtain ⟨v, _, rfl⟩ := Option.map_eq_some_iff.mp h
  simp only [hlimit]
  exact ⟨hlt, Nat.le_add_right .., hperm, hebit⟩

/-- The data of an operation on the entry node with the request and the check that it comes from. -/
lemma entryData_request (h : call.entryData node = some d) :
    (call.request .entry = some d.grantRequest ∧ ummuEntryParamCheck node d = d.op ∧
        d.op ≠ .opEnd ∧ d.dataLimit < 2 ^ 48 ∧ d.dataBase ≤ d.dataLimit ∧ d.perm.toNat < 2 ^ 6 ∧
        d.eBit.toNat < 2) ∨
      (call.request .entry = some d.ungrantRequest ∧ ummuEntryUngrantParamCheck node d = d.op ∧
        d.op ≠ .opEnd) := by
  have hungrant : ∀ data size tokenval bytoken,
      entryUngrantData node data size tokenval bytoken = some d →
      some (ungrantDataInfo data size tokenval bytoken).ungrantRequest = some d.ungrantRequest ∧
        ummuEntryUngrantParamCheck node d = d.op ∧ d.op ≠ .opEnd := by
    intro data size tokenval bytoken hdata
    unfold entryUngrantData at hdata
    simp only at hdata
    by_cases hcond : size = 0 ∨ ummuEntryUngrantParamCheck node
        (ungrantDataInfo data size tokenval bytoken) = .opEnd
    · rw [if_pos hcond] at hdata
      cases hdata
    · rw [if_neg hcond] at hdata
      obtain rfl := Option.some.inj hdata
      exact ⟨rfl, rfl, fun hop => hcond (Or.inr hop)⟩
  cases call with
  | ungrant data size => exact Or.inr (hungrant _ _ _ _ h)
  | ungrantByToken data size tokenVal => exact Or.inr (hungrant _ _ _ _ h)
  | grant a env =>
    obtain ⟨seg, hseg, h⟩ := Option.bind_eq_some_iff.mp h
    by_cases hcheck : ummuCheckData a.data a.dataSize a.perm seg.eBit .entry = false
    · rw [if_pos hcheck] at h
      cases h
    rw [if_neg hcheck] at h
    obtain ⟨d₀, hpre, h⟩ := Option.bind_eq_some_iff.mp h
    by_cases hend : ummuEntryParamCheck node d₀ = .opEnd
    · rw [if_pos hend] at h
      cases h
    · rw [if_neg hend] at h
      obtain rfl := Option.some.inj h
      rw [ApiCall.request, hseg, Option.bind_some, if_neg hcheck, hpre]
      rw [Bool.not_eq_false] at hcheck
      have hrange := preproc_range_ok hcheck hpre
      exact Or.inl ⟨rfl, rfl, hend, hrange⟩

/-- A refused call on an entry-mode tid is a refused request. -/
lemma entry_refused (hok : EntryOk node) (hS : Stands S node.segs) (h : call.entryData node = none)
    {r : PermRequest} (hr : call.request .entry = some r) : S.Step r false S := by
  have hungrant : ∀ data size tokenval bytoken,
      entryUngrantData node data size tokenval bytoken = none →
      S.Step (ungrantDataInfo data size tokenval bytoken).ungrantRequest false S := by
    intro data size tokenval bytoken hdata
    apply step_missed hS hok.leased
    intro s hmem
    obtain ⟨hv, hkey, rfl⟩ := segs_mem.mp hmem
    have hle := hok.le hv
    have hlt := node.limit_lt
    obtain ⟨hbase, hlimit⟩ := Range.mk.inj hkey
    simp only [ungrantDataInfo] at hbase hlimit
    have hsize : size ≠ 0 := by
      rintro rfl
      bv_omega
    have hsame := entryUngrantParamCheck_seg hv (ungrantDataInfo data size tokenval bytoken)
    rw [if_pos hkey.symm] at hsame
    rw [← hsame]
    unfold entryUngrantData at hdata
    by_contra hop
    rw [if_neg] at hdata
    · cases hdata
    · exact fun h => h.elim hsize hop
  cases call with
  | ungrant data size =>
    obtain rfl := Option.some.inj hr
    exact hungrant _ _ _ _ h
  | ungrantByToken data size tokenVal =>
    obtain rfl := Option.some.inj hr
    exact hungrant _ _ _ _ h
  | grant a env =>
    obtain ⟨seg, hseg, hr⟩ := Option.bind_eq_some_iff.mp hr
    by_cases hcheck : ummuCheckData a.data a.dataSize a.perm seg.eBit .entry = false
    · rw [if_pos hcheck] at hr
      cases hr
    rw [if_neg hcheck] at hr
    obtain ⟨d₀, hpre, rfl⟩ := Option.map_eq_some_iff.mp hr
    have hend : ummuEntryParamCheck node d₀ = .opEnd := by
      by_contra hne
      have hdata : entryGrantData node a env.random = none := h
      rw [entryGrantData, hseg, Option.bind_some, if_neg hcheck, hpre, Option.bind_some,
        if_neg hne] at hdata
      cases hdata
    have hv : node.valid = true := by
      by_contra hv
      rw [ummuEntryParamCheck, if_pos (by simpa using hv)] at hend
      cases hend
    apply step_refused hS hok.leased
    · rw [segs_valid hv]
      exact List.cons_ne_nil _ _
    · intro s hmem
      obtain ⟨_, hkey, rfl⟩ := segs_mem.mp hmem
      rw [entryParamCheck_seg hv, if_pos hkey.symm] at hend
      exact hend

/-- A call on an entry-mode tid is a request to the store. -/
theorem entry_step (hb : info.blockBase = .entryBlock node) (hok : EntryOk node) :
    ∃ node', (call.run info).info.blockBase = .entryBlock node' ∧ EntryOk node' ∧
      ∀ S S', Stands S node.segs → Stands S' node'.segs → ∀ r, call.request .entry = some r →
        S.Step r (decide ((call.run info).ret = 0)) S' := by
  have hruns := run_entryRunsAs hb call
  generalize call.run info = res at hruns ⊢
  cases hruns with
  | refused hdata =>
    refine ⟨node, hb, hok, fun S S' hS hS' r hr => ?_⟩
    rw [hS.unique hS', CallResult.failed, decide_eq_false call.refusal_ne]
    exact entry_refused hok hS hdata hr
  | @entry d plbi hdata =>
    refine ⟨_, rfl, ?_⟩
    rcases entryData_request hdata with
      ⟨hreq, hcheck, hend, hlt, hle, hperm, hebit⟩ | ⟨hreq, hcheck, hend⟩
    · rcases entryParamCheck_cases hcheck with
        hop | ⟨hop, hv⟩ | ⟨hop, hv, hbase, hlimit, htc, _, hnonce⟩
      · exact (hend hop).elim
      · obtain ⟨hok', hv', hkey, hlease⟩ := fill_seg hlt hle hperm hebit (hok.nonce hv)
        have hrun : ummuEntryOp node d = (0, ummuEntryFillNode node d) := by
          simp only [ummuEntryOp, hop]
        rw [hrun]
        refine ⟨hok', fun S S' hS hS' r hr => ?_⟩
        obtain rfl := Option.some.inj (hreq.symm.trans hr)
        have hchanged := entry_changed (k := d.key) (fun h => by rw [hv] at h; cases h)
          (fun _ => hkey)
        rw [if_pos hv'] at hchanged
        exact step_granted hS hS' (by rw [segs_invalid hv]; exact fun f hf => by cases hf) hlease
          hchanged
      · have hkey : node.key = d.key := by rw [EntryNode.key, DataInfo.key, hbase, hlimit]
        have he' : (d.key, node.seg) ∈ node.segs := segs_mem.mpr ⟨hv, hkey.symm, rfl⟩
        rw [entryParamCheck_seg hv, if_pos hkey] at hcheck
        have hcount : node.seg.tokenCount = 1 :=
          (toNat_eq_iff (k := 1) seg_tokenCount.symm (by decide) (by decide)).mp hnonce
        obtain ⟨hret, hok', hchanged⟩ := update_changed hok hv ⟨htc, Or.inl ⟨hop, hcount⟩⟩ hkey
        refine ⟨hok', fun S S' hS hS' r hr => ?_⟩
        obtain rfl := Option.some.inj (hreq.symm.trans hr)
        have hself : { d with op := .addToken } = d := by rw [← hop]
        rw [hret]
        exact step_addToken hS hS' he' (hcheck.trans hop) (hself.symm ▸ hchanged)
    · rcases entryUngrantParamCheck_cases hcheck with hop | ⟨hv, hbase, hlimit, hcases⟩
      · exact (hend hop).elim
      · have hkey : node.key = d.key := by rw [EntryNode.key, DataInfo.key, hbase, hlimit]
        have he' : (d.key, node.seg) ∈ node.segs := segs_mem.mpr ⟨hv, hkey.symm, rfl⟩
        rw [entryUngrantParamCheck_seg hv, if_pos hkey] at hcheck
        rcases hcases with hop | ⟨hop, htc, _, hval⟩
        · have hrun : ummuEntryOp node d = (0, EntryNode.zero) := by
            simp only [ummuEntryOp, hop]
          rw [hrun]
          have hzero : ¬EntryNode.zero.valid = true := by decide
          refine ⟨⟨fun h => (hzero h).elim, fun h => (hzero h).elim, fun _ => rfl⟩,
            fun S S' hS hS' r hr => ?_⟩
          obtain rfl := Option.some.inj (hreq.symm.trans hr)
          have hchanged := entry_changed (fun _ => hkey) (fun h => (hzero h).elim)
          exact step_ungrant hS hS' hok.leased he' (hcheck.trans hop) hchanged
        · obtain ⟨hret, hok', hchanged⟩ := update_changed hok hv ⟨htc, Or.inr ⟨hop, hval⟩⟩ hkey
          refine ⟨hok', fun S S' hS hS' r hr => ?_⟩
          obtain rfl := Option.some.inj (hreq.symm.trans hr)
          have hself : { d with op := .removeToken } = d := by rw [← hop]
          rw [hret]
          exact step_removeToken hS hS' hok.leased he' (hcheck.trans hop) (hself.symm ▸ hchanged)

end Entry

end Ummu
