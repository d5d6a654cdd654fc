import Ummu.TidCalls

/-!
# Every segment can be taken back

What the checks let through succeeds: the internal checks of the table operations never fail, and
only a grant whose level-block allocation failed is undone.
-/

namespace Ummu

open Lib Machine Cell

section Revocable

variable {y : Prop} {info : MaptInfo} {c : TableCtx} {t : RangeTable} {sub : SegBlock 3}
  {d : DataInfo} {e : Range × SegInfo} {maps : List MapOutcome} {l : Nat}

/-- The codes and the trace of a table operation that the checks let through. -/
lemma accepted_call (h : TableInv y c t sub) (hmaps : FreshMaps y maps) (ha : Accepted t d) :
    ∃ opRet ret m t', tableCall true c (some t) d maps l = (opRet, ret, m, t') ∧
      ((opRet = 0 ∧ ret = 0 ∧ (∀ ev ∈ m.trace, Quiet allocErrors ev) ∧
          (d.op ≠ .grant → ∀ ev ∈ m.trace, Quiet ∅ ev)) ∨
        (d.op = .grant ∧ opRet ≠ 0 ∧ ret ≠ 0 ∧ RolledBack m.trace)) := by
  have hmono : ∀ {tr : List Event}, (∀ ev ∈ tr, Quiet ∅ ev) → ∀ ev ∈ tr, Quiet allocErrors ev :=
    fun htr ev hev => Quiet.mono (Set.empty_subset _) ev (htr ev hev)
  cases ha with
  | grant hop hd hfree =>
    rcases tableCall_grant (l := l) h hmaps hd hop hfree with
      ⟨m, t', sub', hgo, _, _, htrace⟩ | ⟨code, m, hgo, hcode, _, _, htrace⟩
    · exact ⟨_, _, _, _, hgo, Or.inl ⟨rfl, rfl, traces_start htrace, fun hne => (hne hop).elim⟩⟩
    · exact ⟨_, _, _, _, hgo, Or.inr ⟨hop, hcode, hcode, htrace⟩⟩
  | token he hd hready _ =>
    obtain ⟨m, t', sub', hgo, _, _, htrace⟩ := tableCall_token (r := true) (l := l) h hmaps he hd
      hready
    exact ⟨_, _, _, _, hgo, Or.inl ⟨rfl, rfl, hmono (traces_start htrace),
      fun _ => traces_start htrace⟩⟩
  | ungrant hop he hd =>
    obtain ⟨m, t', sub', hgo, _, _, htrace⟩ := tableCall_ungrant (r := true) (l := l) h hmaps he hd
      hop
    exact ⟨_, _, _, _, hgo, Or.inl ⟨rfl, rfl, hmono (traces_start htrace),
      fun _ => traces_start htrace⟩⟩

/-- `ummu_ungrant` on exactly a recorded segment passes the checks. -/
lemma ungrant_data (hs : Segs t) (he : e ∈ t) :
    ∃ d, (ApiCall.ungrant (BitVec.ofNat 64 e.1.left) (BitVec.ofNat 64 e.2.grantSize)).data t =
      some d ∧ d.op = .ungrant := by
  have hok := hs.ok e he
  have h1 := hok.left
  have h2 := hok.right
  have h3 := hok.le
  have h4 := hok.lt
  have hleft : (BitVec.ofNat 64 e.1.left).toNat = e.1.left := by
    rw [BitVec.toNat_ofNat]
    omega
  have hsize : (BitVec.ofNat 64 e.2.grantSize).toNat = e.2.grantSize := by
    rw [BitVec.toNat_ofNat]
    omega
  have hrange : e.1 = Range.ofSize e.1.left (e.2.grantSize - 1) := by
    rw [Range.ofSize, show (e.1.left + (e.2.grantSize - 1)) % 2 ^ 64 = e.1.right by omega]
  have hop : ummuTableUngrantCheck (some t) (ungrantDataInfo (BitVec.ofNat 64 e.1.left)
      (BitVec.ofNat 64 e.2.grantSize) 0 false) = .ungrant := by
    have hfind := findSeg_of_mem hs.apart he hrange
    rw [ummuTableUngrantCheck]
    simp only [ungrantDataInfo, hleft, hsize, hfind]
    rfl
  refine ⟨_, (if_neg ?_ : ungrantData _ _ _ _ _ = _), hop⟩
  rintro (h | h | h)
  · have := congrArg BitVec.toNat h
    rw [hsize] at this
    change e.2.grantSize = 0 at this
    omega
  · have halign := alignVpageShiftCheck_iff.mpr (hleft.symm ▸ hok.page)
    exact Bool.false_ne_true (h.symm.trans halign)
  · rw [hop] at h
    cases h

/-- In every state of a table-mode tid: every recorded segment can be taken back; a call that the
checks let through succeeds without an internal error, unless it is a grant whose allocation failed
and that was rolled back; and the range table follows every table operation that succeeds. -/
theorem tidReach_revocable {o : Option RangeTable}
    (h : TidReach y (fun _ call => call.RecordAlloc) info) (hb : info.blockBase = .tableCtx c o) :
    ∃ t, o = some t ∧
      (∀ e ∈ t, (ummuUngrant info (BitVec.ofNat 64 e.1.left)
        (BitVec.ofNat 64 e.2.grantSize)).ret = 0) ∧
      ∀ call : ApiCall, call.Fresh y → call.RecordAlloc → ∀ d, call.data t = some d →
        (d.op ≠ .grant → (call.run info).ret = 0 ∧ ∀ ev ∈ (call.run info).trace, Quiet ∅ ev) ∧
        (d.op = .grant →
          ((call.run info).ret = 0 ∧ ∀ ev ∈ (call.run info).trace, Quiet allocErrors ev) ∨
          ((call.run info).ret ≠ 0 ∧ RolledBack (call.run info).trace)) ∧
        ((ummuTableOp d (startMachine c call.maps call.lvl)).1 = 0 →
          (ummuUpdateInfo true (some t) d).1 = 0) := by
  obtain ⟨t, sub, rfl, hinv⟩ := tidReach_table h hb
  have hcall : ∀ call : ApiCall, call.Fresh y → call.RecordAlloc → ∀ d, call.data t = some d →
      (d.op ≠ .grant → (call.run info).ret = 0 ∧ ∀ ev ∈ (call.run info).trace, Quiet ∅ ev) ∧
      (d.op = .grant →
        ((call.run info).ret = 0 ∧ ∀ ev ∈ (call.run info).trace, Quiet allocErrors ev) ∨
        ((call.run info).ret ≠ 0 ∧ RolledBack (call.run info).trace)) ∧
      ((ummuTableOp d (startMachine c call.maps call.lvl)).1 = 0 →
        (ummuUpdateInfo true (some t) d).1 = 0) := by
    intro call hfresh hrecord d hdata
    obtain ⟨opRet, ret, m, t', hgo, hcases⟩ := accepted_call (l := call.lvl) hinv hfresh.maps
      (data_accepted hinv.segs hdata)
    have hupdate : (ummuTableOp d (startMachine c call.maps call.lvl)).1 = 0 →
        opRet = 0 ∧ (ummuUpdateInfo true (some t) d).1 = ret := by
      intro h0
      rw [tableCall, if_pos h0] at hgo
      exact ⟨(congrArg Prod.fst hgo).symm.trans h0, congrArg (fun r => r.2.1) hgo⟩
    have hruns := run_runsAs hb call
    generalize call.run info = r at hruns ⊢
    cases hruns with
    | refused hnone =>
      rw [hdata] at hnone
      cases hnone
    | table hdata' hrun =>
      obtain rfl := Option.some.inj (hdata.symm.trans hdata')
      rw [hrecord.eq] at hrun
      obtain ⟨rfl, rfl, rfl, rfl⟩ := by simpa using hrun.symm.trans hgo
      rcases hcases with ⟨h1, h2, h3, h4⟩ | ⟨h1, h2, h3, h4⟩
      · exact ⟨fun hne => ⟨h2, h4 hne⟩, fun _ => Or.inl ⟨h2, h3⟩,
          fun h0 => (hupdate h0).2.trans h2⟩
      · exact ⟨fun hne => (hne h1).elim, fun _ => Or.inr ⟨h3, h4⟩,
          fun h0 => (h2 (hupdate h0).1).elim⟩
  refine ⟨t, rfl, fun e he => ?_, hcall⟩
  obtain ⟨d, hdata, hop⟩ := ungrant_data hinv.segs he
  exact ((hcall (.ungrant _ _) trivial trivial d hdata).1 (by rw [hop]; decide)).1

theorem tidReach_revocable_page :
    (ummuUngrant (pageGrant.run (newTid .zero)).info 0 0x1000).ret = 0 := by
  obtain ⟨t, ht, h, _⟩ := tidReach_revocable (pageGrant_reach (y := True) (n := .zero) rfl
    (fun _ => rfl)) rfl
  obtain rfl := Option.some.inj ht
  exact h _ (List.mem_singleton.mpr rfl)

end Revocable

end Ummu
