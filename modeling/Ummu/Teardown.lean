import Ummu.Allocate
import Ummu.EntryCalls

/-!
# Freeing a tid

`ummu_free_tid` finds the mapt blocks through the level bitmap, at the first level block of each. A
block whose first level block is free while others of it are in use stays mapped.
-/

namespace Ummu

open Lib Machine

/-- A tid in the hands of its user: the context, the tid, what was taken and given back so far. -/
structure Life where
  ctx : UmmuCtx
  tid : BitVec 32
  events : List ResourceEvent

/-- A call of `ummu_allocate_tid` that returned zero. -/
def LifeStart (y : Prop) (s : Life) : Prop :=
  ∃ ctx tidAttr tid env, FreshMaps y env.create.maps ∧ ctx.ctxMutex = false ∧
    (ummuAllocateTid (some ctx) tidAttr tid env).ret = 0 ∧
    (ummuAllocateTid (some ctx) tidAttr tid env).ctx = some s.ctx ∧
    (ummuAllocateTid (some ctx) tidAttr tid env).tid = some s.tid ∧
    (ummuAllocateTid (some ctx) tidAttr tid env).events = s.events

/-- A call on the tid. -/
def LifeNext (y : Prop) (s s' : Life) : Prop :=
  ∃ obj call, s.ctx.maptMap s.tid = some obj ∧ ApiCall.Fresh y call ∧
    s' = ⟨{ s.ctx with
        maptMap := Function.update s.ctx.maptMap s.tid
          (some { obj with info := (call.run obj.info).info }) },
      s.tid, s.events ++ resourceEvents (call.run obj.info).trace⟩

/-- The states of a tid after any calls, whatever fails in them. -/
def LifeReach (y : Prop) : Life → Prop := Reachable (LifeStart y) (LifeNext y)

/-- Each mapt block has its first level block in use. -/
def BlockBase.FirstInUse : BlockBase → Prop
  | .entryBlock _ => True
  | .tableCtx c _ => ∀ k, (c.maptBlockArray k).isSome = true →
      testBit c.levelBlockBitmap (perMaptLevelBlockCnt * k) = true

section Calls

variable {H : Set Resource} {c : TableCtx} {t t' : Option RangeTable} {d : DataInfo}
  {maps : List MapOutcome} {m : Machine} {opRet ret : Int} {l : Nat} {record : Bool}

/-- A table operation books the mapt blocks that it maps and unmaps. -/
lemma tableCall_holds (hH : NoBlocks H) (hids : BlockIds c.maptBlockArray)
    (h : tableCall record c t d maps l = (opRet, ret, m, t')) :
    BlockIds m.ctx.maptBlockArray ∧ m.ctx.blkExpSize = c.blkExpSize ∧
      Holds (H ∪ blocksHeld c.maptBlockArray c.blkExpSize) (resourceEvents m.trace)
        (H ∪ blocksHeld m.ctx.maptBlockArray c.blkExpSize) := by
  have hm : m = (ummuTableOp d (startMachine c maps l)).2 := by
    rw [tableCall] at h
    simp only at h
    by_cases h0 : (ummuTableOp d (startMachine c maps l)).1 = 0
    · rw [if_pos h0] at h
      exact (congrArg (fun r => r.2.2.1) h).symm
    · rw [if_neg h0] at h
      exact (congrArg (fun r => r.2.2.1) h).symm
  have hstart : Booked H (startMachine c maps l) (startMachine c maps l) := .refl hids
  have hop : Booked H (startMachine c maps l) m := by
    rw [hm]
    exact (booked_closed hH _).tableOp hstart
  obtain ⟨es, htrace, hledger⟩ := hop.ledger
  have hes : m.trace = es := htrace
  rw [hes]
  exact ⟨hop.ids, hop.size, hledger⟩

/-- The range table stays. -/
lemma tableCall_isSome (h : tableCall record c t d maps l = (opRet, ret, m, t')) :
    t'.isSome = t.isSome := by
  have hupdate : (ummuUpdateInfo record t d).2.isSome = t.isSome := by
    unfold ummuUpdateInfo
    cases t with
    | none => rfl
    | some t =>
      cases d.op with
      | opEnd => rfl
      | _ => rfl
  rw [tableCall] at h
  simp only at h
  by_cases h0 : (ummuTableOp d (startMachine c maps l)).1 = 0
  · rw [if_pos h0] at h
    exact (congrArg (fun r => r.2.2.2.isSome) h).symm.trans hupdate
  · rw [if_neg h0] at h
    exact (congrArg (fun r => r.2.2.2.isSome) h).symm

/-- The range table of a tid exists. -/
def BlockBase.HasTable : BlockBase → Prop
  | .entryBlock _ => True
  | .tableCtx _ t => t.isSome = true

/-- A call keeps the ledger of a tid in order. -/
theorem run_holds {info : MaptInfo} (hH : Clear .base H) (hids : info.blockBase.Ids)
    (htable : info.blockBase.HasTable) (call : ApiCall) :
    (call.run info).info.blockBase.Ids ∧ (call.run info).info.blockBase.HasTable ∧
      (call.run info).info.kcmdPlbi = info.kcmdPlbi ∧
      Holds (H ∪ info.blockBase.held) (resourceEvents (call.run info).trace)
        (H ∪ (call.run info).info.blockBase.held) := by
  cases hb : info.blockBase with
  | entryBlock node =>
    have hruns := run_entryRunsAs hb call
    generalize call.run info = r at hruns ⊢
    cases hruns with
    | refused _ =>
      rw [CallResult.failed, hb]
      exact ⟨trivial, trivial, rfl, .nil⟩
    | entry _ => exact ⟨trivial, trivial, rfl, .nil⟩
  | tableCtx c o =>
    rw [hb] at hids htable
    obtain ⟨t, rfl⟩ := Option.isSome_iff_exists.mp htable
    have hruns := run_runsAs hb call
    generalize call.run info = r at hruns ⊢
    cases hruns with
    | refused _ =>
      rw [CallResult.failed, hb]
      exact ⟨hids, rfl, rfl, .nil⟩
    | @table d opRet ret m t' plbi _ hrun =>
      have hsome := tableCall_isSome hrun
      have hno : NoBlocks (H ∪ {r | r = .tableCtx ∨ ((some t).isSome = true ∧ r = .segMng)}) := by
        refine fun k size => ⟨?_, ?_⟩
        · rintro (h | h | ⟨_, h⟩)
          · exact hH _ h rfl
          · cases h
          · cases h
        · rintro (h | h | ⟨_, h⟩)
          · exact hH _ h rfl
          · cases h
          · cases h
      obtain ⟨hids', hsize, hledger⟩ := tableCall_holds hno hids hrun
      refine ⟨hids', hsome, rfl, ?_⟩
      simp only [BlockBase.held, ← Set.union_assoc, hsize, hsome]
      exact hledger

end Calls

section Life

variable {y : Prop} {s s' : Life}

/-- What holds of a tid between its allocation and its end. -/
structure LifeInv (s : Life) (obj : MaptObj) : Prop where
  mem : s.ctx.maptMap s.tid = some obj
  fd : ¬s.ctx.sharedFd < 0
  ids : obj.info.blockBase.Ids
  hasTable : obj.info.blockBase.HasTable
  ledger : Holds ∅ s.events (insert (.tid s.tid) obj.held)

lemma lifeStart_inv (h : LifeStart y s) : ∃ obj, LifeInv s obj := by
  obtain ⟨ctx, tidAttr, tid, env, hmaps, hmutex, hret, hctx, htid, hevents⟩ := h
  have hclean := @allocateTid_clean y tidAttr tid env (some ctx) hmaps
    (fun c hc => by rwa [← Option.some.inj hc])
  obtain ⟨ctx₀, obj, hctx₀, _, hctx', htid', hfd, _, hids, hfresh, hholds⟩ := hclean.done hret
  have hs : s.ctx = { ctx₀ with
      maptMap := Function.update ctx₀.maptMap obj.info.tid (some obj) } :=
    Option.some.inj (hctx.symm.trans hctx')
  have ht : s.tid = obj.info.tid := Option.some.inj (htid.symm.trans htid')
  refine ⟨obj, ?_, ?_, hids, ?_, ?_⟩
  · rw [hs, ht]
    exact Function.update_self ..
  · rw [hs]
    exact hfd
  · cases hb : obj.info.blockBase with
    | entryBlock node => trivial
    | tableCtx c t =>
      rw [hb] at hfresh
      rw [hfresh.1]
      rfl
  · rw [← hevents, ht]
    exact hholds

lemma lifeNext_inv {obj : MaptObj} (h : LifeInv s obj) (hnext : LifeNext y s s') :
    ∃ obj', LifeInv s' obj' := by
  obtain ⟨obj', call, hobj, _, rfl⟩ := hnext
  obtain rfl := Option.some.inj (hobj.symm.trans h.mem)
  have hclear : Clear .base (insert (.tid s.tid)
      (insert .maptInfo (queueHeld obj'.info.kcmdPlbi obj'.queueCtx))) :=
    ((queueHeld_clear (by decide)).insert (by decide)).insert (fun h => Stage.noConfusion h)
  obtain ⟨hids, htable, hkcmd, hholds⟩ := run_holds hclear h.ids h.hasTable call
  refine ⟨_, Function.update_self .., h.fd, hids, htable, ?_⟩
  rw [MaptObj.held]
  simp only [hkcmd]
  rw [← Set.insert_union]
  have hledger := h.ledger
  rw [MaptObj.held, ← Set.insert_union] at hledger
  exact hledger.append hholds

theorem lifeReach_inv (h : LifeReach y s) : ∃ obj, LifeInv s obj :=
  h.invariant (fun _ hs => lifeStart_inv hs) (fun _ _ hs hnext => by
    obtain ⟨obj, hobj⟩ := hs
    exact lifeNext_inv hobj hnext)

/-- The teardown misses nothing where each mapt block has its first level block in use. -/
lemma leaked_iff {b : BlockBase} (hids : b.Ids) : b.leaked = ∅ ↔ b.FirstInUse := by
  cases b with
  | entryBlock node => exact ⟨fun _ => trivial, fun _ => rfl⟩
  | tableCtx c t =>
    have hmissed : ∀ k, (c.missed k).isSome = true ↔
        (c.maptBlockArray k).isSome = true ∧ ¬testBit c.levelBlockBitmap (4 * k) = true := by
      intro k
      rw [TableCtx.missed]
      by_cases hbit : testBit c.levelBlockBitmap (4 * k) = true
      · rw [if_pos hbit]
        exact ⟨fun h => absurd h Bool.false_ne_true, fun h => absurd hbit h.2⟩
      · rw [if_neg hbit]
        exact ⟨fun h => ⟨h, hbit⟩, fun h => h.1⟩
    constructor
    · intro h k hk
      by_contra hbit
      have hmem : .maptBlock k ∈ BlockBase.leaked (.tableCtx c t) :=
        ⟨k, (hmissed k).mpr ⟨hk, hbit⟩, Or.inl rfl⟩
      rw [h] at hmem
      exact hmem
    · intro h
      rw [Set.eq_empty_iff_forall_notMem]
      rintro r ⟨k, hk, _⟩
      obtain ⟨hmapped, hbit⟩ := (hmissed k).mp hk
      exact hbit (h k hmapped)

/-- What `ummu_free_tid` gives back completes the ledger where the teardown misses nothing. -/
lemma LifeInv.freed_iff {obj : MaptObj} (h : LifeInv s obj)
    (hfree : (ummuFreeTid (some s.ctx) s.tid).1 = 0) :
    Holds ∅ (s.events ++ (ummuFreeTid (some s.ctx) s.tid).2.2) ∅ ↔
      obj.info.blockBase.FirstInUse := by
  have hevents : (ummuFreeTid (some s.ctx) s.tid).2.2 =
      ummuMaptDestroy obj ++ [.release (.tid s.tid)] := by
    simp only [ummuFreeTid, h.mem] at hfree ⊢
    by_cases hvalid : obj.info.valid = false
    · have heinval : (-einval : Int) ≠ 0 := by decide
      rw [if_pos hvalid] at hfree
      exact (heinval hfree).elim
    · rw [if_neg hvalid, ummuPutTid, if_neg h.fd]
  have hdriver : ∀ t, t ≠ .driver → Clear t (insert (.tid s.tid) ∅) :=
    fun t ht => Clear.empty.insert (fun h => ht h.symm)
  have hdestroy := maptDestroy_holds (hdriver .info (by decide))
    (hdriver .queue (by decide)) (hdriver .base (by decide)) h.ids
  have hclear : .tid s.tid ∉ obj.info.blockBase.leaked :=
    (leaked_clear (by decide : Stage.driver ≠ .base)).not_mem rfl
  have hledger := h.ledger
  rw [← Set.singleton_union] at hledger
  rw [insert_empty_eq, Set.singleton_union (a := Resource.tid s.tid) (s := obj.info.blockBase.leaked)]
    at hdestroy
  have hall := hledger.append (hdestroy.append (.release hclear))
  rw [hevents, ← leaked_iff h.ids]
  constructor
  · intro hempty
    exact Ledger.unique hall hempty
  · intro hempty
    rwa [hempty] at hall

/-- A tid that is freed after any history of calls has given back everything exactly once if and
only if each of its mapt blocks has its first level block in use. -/
theorem freeTid_complete_iff (h : LifeReach y s)
    (hfree : (ummuFreeTid (some s.ctx) s.tid).1 = 0) :
    ∃ obj, s.ctx.maptMap s.tid = some obj ∧
      (Holds ∅ (s.events ++ (ummuFreeTid (some s.ctx) s.tid).2.2) ∅ ↔
        obj.info.blockBase.FirstInUse) := by
  obtain ⟨obj, hinv⟩ := lifeReach_inv h
  exact ⟨obj, hinv.mem, hinv.freed_iff hfree⟩

/-- A call on the tid, if it is there. -/
def Life.call (s : Life) (call : ApiCall) : Life :=
  match s.ctx.maptMap s.tid with
  | none => s
  | some obj =>
    ⟨{ s.ctx with
        maptMap := Function.update s.ctx.maptMap s.tid
          (some { obj with info := (call.run obj.info).info }) },
      s.tid, s.events ++ resourceEvents (call.run obj.info).trace⟩

lemma LifeReach.calls (h : LifeReach y s) {calls : List ApiCall}
    (hfresh : ∀ call ∈ calls, call.Fresh y) : LifeReach y (calls.foldl Life.call s) := by
  induction calls generalizing s with
  | nil => exact h
  | cons call calls ih =>
    obtain ⟨hcall, hrest⟩ := List.forall_mem_cons.mp hfresh
    refine ih ?_ hrest
    unfold Life.call
    cases hobj : s.ctx.maptMap s.tid with
    | none => exact h
    | some obj => exact .step h ⟨obj, call, hobj, hcall, rfl⟩

/-- The driver of `openDriver` hands out its tid. -/
def openResult : AllocateResult :=
  ummuAllocateTid (some ⟨3, fun _ => none, false⟩) (some 0) (some 7)
    (openDriver [.mapped (fun _ => .zero)])

def openLife : Life :=
  ⟨openResult.ctx.getD ⟨3, fun _ => none, false⟩, openResult.tid.getD 7, openResult.events⟩

lemma openLife_reach : LifeReach True openLife := by
  have hret : openResult.ret = 0 := by decide +kernel
  have hctx : openResult.ctx = some openLife.ctx := by
    have h : openResult.ctx ≠ none := Option.isSome_iff_ne_none.mp (by decide +kernel)
    exact (Option.getD_of_ne_none h ⟨3, fun _ => none, false⟩).symm
  have htid : openResult.tid = some openLife.tid := by
    have h : openResult.tid ≠ none := Option.isSome_iff_ne_none.mp (by decide +kernel)
    exact (Option.getD_of_ne_none h 7).symm
  refine .start ⟨⟨3, fun _ => none, false⟩, some 0, some 7,
    openDriver [.mapped (fun _ => .zero)], fun mem hmem o => ?_, rfl, hret, hctx, htid, rfl⟩
  obtain rfl : mem = fun _ => .zero := by simpa [openDriver] using hmem
  exact ⟨rfl, fun _ => rfl⟩

/-- A grant of one page, for which a mapt block can be mapped. -/
def grantPage (addr : BitVec 64) : ApiCall :=
  .grant ⟨addr, 0x1000, maptPermRW, some ⟨none, 0⟩⟩ ⟨[.mapped (fun _ => .zero)], true, none, 0⟩

lemma grantPage_fresh (addr : BitVec 64) : (grantPage addr).Fresh y := by
  intro mem hmem o
  obtain rfl : mem = fun _ => .zero := by simpa using hmem
  exact ⟨rfl, fun _ => rfl⟩

theorem freeTid_complete_iff_page : ∃ obj,
    (openLife.call (grantPage 0)).ctx.maptMap (openLife.call (grantPage 0)).tid = some obj ∧
      (Holds ∅ ((openLife.call (grantPage 0)).events ++
        (ummuFreeTid (some (openLife.call (grantPage 0)).ctx)
          (openLife.call (grantPage 0)).tid).2.2) ∅ ↔ obj.info.blockBase.FirstInUse) := by
  have hreach : LifeReach True (openLife.call (grantPage 0)) :=
    @LifeReach.calls True openLife openLife_reach [grantPage 0] (fun call hcall => by
      rw [List.mem_singleton.mp hcall]
      exact grantPage_fresh 0)
  exact freeTid_complete_iff hreach (by decide +kernel)

/-- Six level blocks come into use, and the first of the second mapt block is given back. -/
def holeCalls : List ApiCall :=
  [grantPage 0, grantPage 0x1000, grantPage 0x2000, grantPage 0x3000, grantPage 0x8000000000,
    grantPage 0x8040000000, grantPage 0x10000000000, grantPage 0x10040000000,
    .ungrant 0x8040000000 0x1000]

def holeLife : Life := holeCalls.foldl Life.call openLife

/-- Whether mapt block 1 is mapped, and its first level block in use. -/
def Life.secondBlock (s : Life) : Option (Bool × Bool) :=
  (s.ctx.maptMap s.tid).bind (fun obj =>
    match obj.info.blockBase with
    | .entryBlock _ => none
    | .tableCtx c _ => some ((c.maptBlockArray 1).isSome, testBit c.levelBlockBitmap 4))

lemma holeLife_secondBlock : holeLife.secondBlock = some (true, false) := by decide +kernel

theorem freeTid_not_complete :
    ¬∀ s : Life, LifeReach True s → (ummuFreeTid (some s.ctx) s.tid).1 = 0 →
      Holds ∅ (s.events ++ (ummuFreeTid (some s.ctx) s.tid).2.2) ∅ := by
  intro hall
  have hreach : LifeReach True holeLife := by
    apply openLife_reach.calls
    simp only [holeCalls, List.forall_mem_cons, grantPage_fresh, true_and]
    exact ⟨trivial, fun _ h => absurd h List.not_mem_nil⟩
  have hfree : (ummuFreeTid (some holeLife.ctx) holeLife.tid).1 = 0 := by decide +kernel
  obtain ⟨obj, hinv⟩ := lifeReach_inv hreach
  have huse := (hinv.freed_iff hfree).mp (hall holeLife hreach hfree)
  have hblock := holeLife_secondBlock
  rw [Life.secondBlock, hinv.mem, Option.bind_some] at hblock
  cases hb : obj.info.blockBase with
  | entryBlock node =>
    rw [hb] at hblock
    cases hblock
  | tableCtx c t =>
    rw [hb] at hblock huse
    obtain ⟨hmapped, hbit⟩ := Prod.mk.inj (Option.some.inj hblock)
    exact Bool.false_ne_true (hbit.symm.trans (huse 1 hmapped))

end Life

end Ummu
