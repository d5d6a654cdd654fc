import Ummu.Process

/-!
# The ledger of a process

Over every run of a process and of its descendants nothing is taken twice or given back twice, and
what is held is at each point what the map of the tids says, with what teardowns and forks missed.
-/

namespace Ummu

open Lib Process

section Held

variable {c : Bool} {P P' : Nat → Set Resource} {n : Nat} {es : List ResourceEvent}

lemma own_injective (n : Nat) : Function.Injective (ProcResource.own n) :=
  fun _ _ h => (ProcResource.own.inj h).2

lemma procHeld_own : Set.preimage (.own n) (procHeld c P) = P n := by
  ext r
  rw [Set.mem_preimage, procHeld, Set.mem_ofPred_eq]
  constructor
  · rintro (⟨_, hctx⟩ | ⟨n', r', hr, hmem⟩)
    · simp [ctxHeld] at hctx
    · obtain ⟨rfl, rfl⟩ := ProcResource.own.inj hr
      exact hmem
  · exact fun h => Or.inr ⟨n, r, rfl, h⟩

lemma procHeld_congr {b : ProcResource} (h : ∀ n r, b = .own n r → (r ∈ P n ↔ r ∈ P' n)) :
    b ∈ procHeld c P ↔ b ∈ procHeld c P' := by
  rw [procHeld, procHeld, Set.mem_ofPred_eq, Set.mem_ofPred_eq]
  apply or_congr_right
  constructor
  · rintro ⟨n, r, rfl, hr⟩
    exact ⟨n, r, rfl, (h n r rfl).mp hr⟩
  · rintro ⟨n, r, rfl, hr⟩
    exact ⟨n, r, rfl, (h n r rfl).mpr hr⟩

/-- One allocation number takes and gives back, the others keep what they have. -/
lemma procHeld_one (hother : ∀ n', n' ≠ n → P' n' = P n') (h : Holds (P n) es (P' n)) :
    Ledger (procHeld c P) (es.map (ownOp n)) (procHeld c P') := by
  rw [show es.map (ownOp n) = (es.map ResourceEvent.op).map (LedgerOp.map (.own n)) from
    (List.map_map).symm]
  refine Ledger.lift (own_injective n) ?_ (fun b hb => procHeld_congr fun n' r hr => ?_)
  · rw [procHeld_own, procHeld_own]
    exact h
  · have hne : n' ≠ n := by
      rintro rfl
      exact hb ⟨r, hr.symm⟩
    rw [hother n' hne]

/-- The members of a list with different allocation numbers do so one after another. -/
lemma procHeld_each {order : List (BitVec 32)} {owner : BitVec 32 → Nat}
    {es : BitVec 32 → List ResourceEvent} (hnodup : order.Nodup)
    (hinj : ∀ k ∈ order, ∀ j ∈ order, owner k = owner j → k = j)
    (hother : ∀ n, (∀ k ∈ order, owner k ≠ n) → P' n = P n)
    (h : ∀ k ∈ order, Holds (P (owner k)) (es k) (P' (owner k))) :
    Ledger (procHeld c P) (order.flatMap (fun k => (es k).map (ownOp (owner k))))
      (procHeld c P') := by
  rw [show (fun k => (es k).map (ownOp (owner k))) = fun k =>
    ((es k).map ResourceEvent.op).map (LedgerOp.map (.own (owner k))) from
    funext fun _ => (List.map_map).symm]
  refine Ledger.owners hnodup (fun k _ => own_injective _)
    (fun k hk j hj a b hab => hinj k hk j hj (ProcResource.own.inj hab).1) (fun k hk => ?_)
    (fun b hb => procHeld_congr fun n r hr => ?_)
  · rw [procHeld_own, procHeld_own]
    exact h k hk
  · have hne : ∀ k ∈ order, owner k ≠ n := by
      rintro k hk rfl
      exact hb k hk ⟨r, hr.symm⟩
    rw [hother n hne]

lemma procHeld_ctx (P : Nat → Set Resource) : procHeld true P =
    insert .maptMap (insert .sharedFd (insert .ctxMutex (insert .ctx (procHeld false P)))) := by
  ext r
  simp only [procHeld, ctxHeld, Set.mem_ofPred_eq, Set.mem_insert_iff, Set.mem_singleton_iff,
    true_and, Bool.false_eq_true, false_and, false_or]
  tauto

lemma ctx_notMem : .ctx ∉ procHeld false P ∧ .ctxMutex ∉ procHeld false P ∧
    .maptMap ∉ procHeld false P ∧ .sharedFd ∉ procHeld false P := by
  have hctx : ∀ r ∈ ctxHeld, r ∉ procHeld false P := by
    rintro r hr (⟨h, _⟩ | ⟨n, r', rfl, _⟩)
    · cases h
    · simp [ctxHeld] at hr
  refine ⟨hctx _ ?_, hctx _ ?_, hctx _ ?_, hctx _ ?_⟩
  · simp [ctxHeld]
  · simp [ctxHeld]
  · simp [ctxHeld]
  · simp [ctxHeld]

/-- The context is given back. -/
lemma closed_ledger : Ledger (procHeld true P) [.give .maptMap, .give .sharedFd, .give .ctxMutex,
    .give .ctx] (procHeld false P) := by
  obtain ⟨h1, h2, h3, h4⟩ := @ctx_notMem P
  rw [procHeld_ctx]
  refine (Ledger.one_give_insert ?_).append ((Ledger.one_give_insert ?_).append
    ((Ledger.one_give_insert ?_).append (Ledger.one_give_insert h1)))
  · simp [h3]
  · simp [h4]
  · simp [h2]

/-- A new context, or nothing where it cannot be set up. -/
lemma newCtx_ledger (env : CtxEnv) :
    Ledger (procHeld false P) (newCtx env).2 (procHeld (newCtx env).1.isSome P) := by
  obtain ⟨h1, h2, h3, h4⟩ := @ctx_notMem P
  have htake : Ledger (procHeld false P) [.take .ctx] (insert .ctx (procHeld false P)) :=
    .one_take h1
  unfold newCtx
  by_cases halloc : env.ctxAlloc = false
  · rw [if_pos halloc]
    exact .nil
  rw [if_neg halloc]
  unfold ummuCtxInit
  by_cases hfd : env.openFd < 0
  · have henodev : (-enodev : Int) ≠ 0 := by decide
    simp only [if_pos hfd, if_pos henodev]
    have hmutex := Ledger.bracket (by simp [h2] : .ctxMutex ∉ insert .ctx (procHeld false P)) .nil
    exact (htake.append hmutex).append (.one_give_insert h1)
  simp only [if_neg hfd]
  have hopen : Ledger (insert .ctx (procHeld false P)) [.take .ctxMutex, .take .sharedFd]
      (insert .sharedFd (insert .ctxMutex (insert .ctx (procHeld false P)))) :=
    .take (by simp [h2]) (.one_take (by simp [h4]))
  by_cases hmap : env.mapCreate = false
  · have henomem : (-enomem : Int) ≠ 0 := by decide
    simp only [if_pos hmap, if_pos henomem]
    have hback : Ledger (insert .sharedFd (insert .ctxMutex (insert .ctx (procHeld false P))))
        [.give .ctxMutex, .give .sharedFd] (insert .ctx (procHeld false P)) := by
      rw [Set.insert_comm]
      exact (Ledger.one_give_insert (by simp [h2])).append (.one_give_insert (by simp [h4]))
    exact (htake.append (hopen.append hback)).append (.one_give_insert h1)
  · have hzero : ¬((0 : Int) ≠ 0) := by decide
    simp only [if_neg hmap, if_neg hzero, Option.isSome_some]
    rw [procHeld_ctx]
    exact htake.append (hopen.append (.one_take (by simp [h3])))

end Held

/-- The allocation number is no longer that of a tid in the map. -/
def Process.Gone (p : Process) (n : Nat) : Prop :=
  (∃ obj, (n, obj) ∈ p.destroyed) ∨ (∃ obj, (n, obj) ∈ p.forsaken) ∨ ∃ tid, (n, tid) ∈ p.unput

/-- Each tid of the map has an allocation number of its own, which nothing else has. -/
structure ProcShape (p : Process) : Prop where
  ctx : ∀ ctx, p.gUmmuCtx = some ctx → ¬ctx.sharedFd < 0 ∧ ctx.ctxMutex = false
  live : ∀ tid obj, p.obj tid = some obj →
    p.owner tid < p.count ∧ obj.info.blockBase.Ids ∧ obj.info.blockBase.HasTable
  inj : ∀ tid tid' obj obj', p.obj tid = some obj → p.obj tid' = some obj' →
    p.owner tid = p.owner tid' → tid = tid'
  gone : ∀ n, p.Gone n → n < p.count ∧ ∀ tid obj, p.obj tid = some obj → p.owner tid ≠ n
  ids : ∀ e ∈ p.destroyed, e.2.info.blockBase.Ids

section Shape

variable {p p' : Process} {n : Nat} {tid : BitVec 32} {obj : MaptObj} {order : List (BitVec 32)}
  {es : List ResourceEvent} {P P' : Nat → Set Resource}

lemma ownHeld_congr (hlive : ∀ tid obj, (p'.obj tid = some obj ∧ p'.owner tid = n) ↔
      (p.obj tid = some obj ∧ p.owner tid = n))
    (hdestroyed : ∀ obj, (n, obj) ∈ p'.destroyed ↔ (n, obj) ∈ p.destroyed)
    (hforsaken : ∀ obj, (n, obj) ∈ p'.forsaken ↔ (n, obj) ∈ p.forsaken)
    (hunput : ∀ tid, (n, tid) ∈ p'.unput ↔ (n, tid) ∈ p.unput) : p'.ownHeld n = p.ownHeld n := by
  ext r
  simp only [Process.ownHeld, Set.mem_ofPred_eq, hdestroyed, hforsaken, hunput, ← and_assoc, hlive]

lemma held_step (hctx : p'.gUmmuCtx.isSome = p.gUmmuCtx.isSome)
    (hother : ∀ n', n' ≠ n → p'.ownHeld n' = p.ownHeld n')
    (h : Holds (p.ownHeld n) es (p'.ownHeld n)) :
    Ledger p.held (es.map (ownOp n)) p'.held := by
  rw [Process.held, Process.held, hctx]
  exact procHeld_one hother h

lemma ownHeld_of_gone (hgone : ¬p.Gone n) : p.ownHeld n =
    {r | ∃ tid obj, p.obj tid = some obj ∧ p.owner tid = n ∧ r ∈ insert (.tid tid) obj.held} := by
  ext r
  rw [Process.ownHeld, Set.mem_ofPred_eq, Set.mem_ofPred_eq]
  constructor
  · rintro (hlive | ⟨obj, hmem, _⟩ | ⟨obj, hmem, _⟩ | ⟨tid, hmem, _⟩)
    · exact hlive
    · exact (hgone (Or.inl ⟨obj, hmem⟩)).elim
    · exact (hgone (Or.inr (Or.inl ⟨obj, hmem⟩))).elim
    · exact (hgone (Or.inr (Or.inr ⟨tid, hmem⟩))).elim
  · exact Or.inl

namespace ProcShape

/-- Of a tid in the map everything is held. -/
lemma ownHeld_live (h : ProcShape p) (hobj : p.obj tid = some obj) :
    p.ownHeld (p.owner tid) = insert (.tid tid) obj.held := by
  rw [ownHeld_of_gone (fun hgone => (h.gone _ hgone).2 tid obj hobj rfl)]
  ext r
  rw [Set.mem_ofPred_eq]
  constructor
  · rintro ⟨tid', obj', hobj', howner, hr⟩
    obtain rfl := h.inj tid' tid obj' obj hobj' hobj howner
    obtain rfl := Option.some.inj (hobj'.symm.trans hobj)
    exact hr
  · exact fun hr => ⟨tid, obj, hobj, rfl, hr⟩

/-- Nothing is held of an allocation that is still to come. -/
lemma ownHeld_new (h : ProcShape p) (hn : p.count ≤ n) : p.ownHeld n = ∅ := by
  rw [ownHeld_of_gone (fun hgone => absurd (h.gone n hgone).1 (Nat.not_lt.mpr hn)),
    Set.eq_empty_iff_forall_notMem]
  rintro r ⟨tid, obj, hobj, howner, _⟩
  exact absurd (howner ▸ (h.live tid obj hobj).1) (Nat.not_lt.mpr hn)

/-- Each tid of the map gives back what the destroyer gives back, and the context goes. -/
lemma closeCtx_ledger (h : ProcShape p) (horder : p.Listing order)
    {destroyer : Option (MaptObj → List ResourceEvent)}
    (hother : ∀ n, (∀ tid ∈ order, p.owner tid ≠ n) → P' n = P n)
    (hheld : ∀ tid obj, p.obj tid = some obj → Holds (P (p.owner tid))
      (destroyer.getD (fun _ => [.release .maptInfo]) obj) (P' (p.owner tid))) :
    Ledger (procHeld p.gUmmuCtx.isSome P) (p.closeCtx order destroyer) (procHeld false P') := by
  unfold Process.closeCtx
  cases hctx : p.gUmmuCtx with
  | none =>
    have hsame : P' = P := by
      funext n
      refine hother n (fun tid htid => ?_)
      have hsome := (horder.2 tid).mp htid
      rw [Process.obj, hctx] at hsome
      cases hsome
    rw [hsame]
    exact .nil
  | some ctx =>
    have hmem : ∀ tid ∈ order, ∃ obj, p.obj tid = some obj :=
      fun tid htid => Option.isSome_iff_exists.mp ((horder.2 tid).mp htid)
    have heach := @procHeld_each true P P' order p.owner
      (fun tid => (p.obj tid).elim [] (destroyer.getD (fun _ => [.release .maptInfo]))) horder.1
      (fun k hk j hj hkj => by
        obtain ⟨obj, hobj⟩ := hmem k hk
        obtain ⟨obj', hobj'⟩ := hmem j hj
        exact h.inj k j obj obj' hobj hobj' hkj) hother
      (fun k hk => by
        obtain ⟨obj, hobj⟩ := hmem k hk
        rw [hobj]
        exact hheld k obj hobj)
    simp only [Process.hashmapClear, if_neg (h.ctx ctx hctx).1, List.append_assoc]
    exact heach.append closed_ledger

end ProcShape

end Shape

/-- The shape with the ledger. -/
structure ProcInv (p : Process) : Prop extends ProcShape p where
  ledger : Ledger p.inherited p.events p.held

section Calls

variable {p : Process} {tid : BitVec 32} {call : ApiCall} {ctx : Option UmmuCtx}

/-- A call that is refused takes nothing, gives nothing back and leaves the context. -/
def RefusedBy (ctx : Option UmmuCtx) (op : Op) : Prop :=
  (op.onCtx ctx).1.ret ≠ 0 ∧ (op.onCtx ctx).2 = (ctx, [])

lemma ApiCall.refused_ne {ret : Int} (h : call.refused = some ret) : ret ≠ 0 := by
  have heinval : (-einval : Int) ≠ 0 := by decide
  have henomem : (-enomem : Int) ≠ 0 := by decide
  cases call with
  | grant a env =>
    simp only [ApiCall.refused] at h
    split_ifs at h
    rwa [← Option.some.inj h]
  | ungrant data size =>
    simp only [ApiCall.refused] at h
    split_ifs at h
    rwa [← Option.some.inj h]
  | ungrantByToken data size tokenVal =>
    simp only [ApiCall.refused] at h
    split_ifs at h
    rwa [← Option.some.inj h]

/-- `ummu_grant` or an ungrant is refused, or it runs on the object of the tid. -/
lemma onCtx_api (ctx : Option UmmuCtx) (tid : BitVec 32) (call : ApiCall) :
    RefusedBy ctx (.api tid call) ∨
    ∃ c obj, ctx = some c ∧ c.maptMap tid = some obj ∧ ((Op.api tid call).onCtx ctx).2 =
      (some { c with
          maptMap := Function.update c.maptMap tid
            (some { obj with info := (call.run obj.info).info }) },
        resourceEvents (call.run obj.info).trace) := by
  have heinval : (-einval : Int) ≠ 0 := by decide
  have henomem : (-enomem : Int) ≠ 0 := by decide
  unfold RefusedBy
  cases ctx with
  | none =>
    cases call with
    | grant a env => exact Or.inl ⟨heinval, rfl⟩
    | ungrant data size => exact Or.inl ⟨henomem, rfl⟩
    | ungrantByToken data size tokenVal => exact Or.inl ⟨henomem, rfl⟩
  | some c =>
    cases hrefused : call.refused with
    | some ret =>
      have hret := ApiCall.refused_ne hrefused
      simp only [Op.onCtx, hrefused]
      exact Or.inl ⟨hret, trivial⟩
    | none =>
      cases hobj : c.maptMap tid with
      | none =>
        simp only [Op.onCtx, hrefused, hobj]
        exact Or.inl ⟨heinval, trivial⟩
      | some obj =>
        simp only [Op.onCtx, hrefused, hobj]
        by_cases hvalid : obj.info.valid = false
        · simp only [if_pos hvalid]
          exact Or.inl ⟨heinval, trivial⟩
        · simp only [if_neg hvalid]
          exact Or.inr ⟨c, obj, rfl, hobj, rfl⟩

/-- `ummu_free_tid` is refused, or it destroys the object of the tid. -/
lemma onCtx_free (ctx : Option UmmuCtx) (tid : BitVec 32) :
    RefusedBy ctx (.free tid) ∨
    ∃ c obj, ctx = some c ∧ c.maptMap tid = some obj ∧ (Op.free tid).onCtx ctx =
      (⟨0, none⟩, some { c with maptMap := Function.update c.maptMap tid none },
        ummuMaptDestroy obj ++ ummuPutTid c.sharedFd tid) := by
  have heinval : (-einval : Int) ≠ 0 := by decide
  unfold RefusedBy
  cases ctx with
  | none => exact Or.inl ⟨heinval, rfl⟩
  | some c =>
    simp only [Op.onCtx, ummuFreeTid]
    cases hobj : c.maptMap tid with
    | none => exact Or.inl ⟨heinval, rfl⟩
    | some obj =>
      by_cases hvalid : obj.info.valid = false
      · simp only [if_pos hvalid]
        exact Or.inl ⟨heinval, trivial⟩
      · simp only [if_neg hvalid]
        exact Or.inr ⟨c, obj, rfl, hobj, rfl⟩

/-- A call on a tid that is not in the map is refused. -/
lemma refused_of_absent {op : Op} (hop : (∃ call, op = .api tid call) ∨ op = .free tid)
    (habsent : p.obj tid = none) : RefusedBy p.gUmmuCtx op := by
  have hmap : ∀ c obj, p.gUmmuCtx = some c → c.maptMap tid = some obj → False := by
    intro c obj hc hobj
    rw [Process.obj, hc, Option.bind_some, hobj] at habsent
    cases habsent
  rcases hop with ⟨call, rfl⟩ | rfl
  · rcases onCtx_api p.gUmmuCtx tid call with h | ⟨c, obj, hc, hobj, _⟩
    · exact h
    · exact (hmap c obj hc hobj).elim
  · rcases onCtx_free p.gUmmuCtx tid with h | ⟨c, obj, hc, hobj, _⟩
    · exact h
    · exact (hmap c obj hc hobj).elim

/-- On a context, the call is the one that is made while no other is under way. -/
theorem onCtx_exec (op : Op) (c : SerialState) :
    (op.onCtx (some c.ctx)).1 = (op.exec c).1 ∧
      ((op.onCtx (some c.ctx)).2.1.getD c.ctx) = (op.exec c).2.ctx := by
  cases op with
  | api tid call =>
    simp only [Op.onCtx, Op.exec]
    cases call.refused with
    | some ret => exact ⟨rfl, rfl⟩
    | none =>
      cases c.ctx.maptMap tid with
      | none => exact ⟨rfl, rfl⟩
      | some obj =>
        by_cases hvalid : obj.info.valid = false
        · simp only [if_pos hvalid]
          exact ⟨trivial, rfl⟩
        · simp only [if_neg hvalid]
          exact ⟨trivial, rfl⟩
  | free tid => exact ⟨rfl, rfl⟩
  | allocate tidAttr tid env => exact ⟨rfl, rfl⟩

/-- A call on the object of a tid keeps what is held with it. -/
lemma run_held {obj : MaptObj} (hids : obj.info.blockBase.Ids)
    (htable : obj.info.blockBase.HasTable) (tid : BitVec 32) (call : ApiCall) :
    (call.run obj.info).info.blockBase.Ids ∧ (call.run obj.info).info.blockBase.HasTable ∧
      Holds (insert (.tid tid) obj.held) (resourceEvents (call.run obj.info).trace)
        (insert (.tid tid) (MaptObj.held { obj with info := (call.run obj.info).info })) := by
  have hclear : Clear .base (insert (.tid tid)
      (insert .maptInfo (queueHeld obj.info.kcmdPlbi obj.queueCtx))) :=
    ((queueHeld_clear (by decide)).insert (by decide)).insert (fun h => Stage.noConfusion h)
  obtain ⟨hids', htable', hkcmd, hholds⟩ := run_holds hclear hids htable call
  refine ⟨hids', htable', ?_⟩
  rw [MaptObj.held, MaptObj.held, ← Set.insert_union, ← Set.insert_union]
  simp only [hkcmd]
  exact hholds

end Calls

section Steps

variable {p p' : Process} {tid : BitVec 32} {obj obj' : MaptObj} {c : UmmuCtx}

/-- The process after a call on a tid in the map that changes its object or removes it. -/
structure Replaced (p p' : Process) (c : UmmuCtx) (tid : BitVec 32) (o : Option MaptObj) :
    Prop where
  before : p.gUmmuCtx = some c
  after : p'.gUmmuCtx = some { c with maptMap := Function.update c.maptMap tid o }
  count : p'.count = p.count
  owner : p'.owner = p.owner
  forsaken : p'.forsaken = p.forsaken
  unput : p'.unput = p.unput

lemma Replaced.obj_self {o : Option MaptObj} (h : Replaced p p' c tid o) : p'.obj tid = o := by
  rw [Process.obj, h.after, Option.bind_some]
  exact Function.update_self ..

lemma Replaced.obj_other {o : Option MaptObj} (h : Replaced p p' c tid o) {tid' : BitVec 32}
    (hne : tid' ≠ tid) : p'.obj tid' = p.obj tid' := by
  rw [Process.obj, Process.obj, h.after, h.before, Option.bind_some, Option.bind_some]
  exact Function.update_of_ne hne ..

/-- A tid of the new map was in the old one. -/
lemma Replaced.obj_old {o : Option MaptObj} (h : Replaced p p' c tid o)
    (hobj : p.obj tid = some obj) {tid' : BitVec 32} (hobj' : p'.obj tid' = some obj') :
    ∃ obj'', p.obj tid' = some obj'' := by
  by_cases hne : tid' = tid
  · subst hne
    exact ⟨obj, hobj⟩
  · rw [h.obj_other hne] at hobj'
    exact ⟨obj', hobj'⟩

lemma Replaced.shape {o : Option MaptObj} (h : Replaced p p' c tid o) (hp : ProcShape p)
    (hobj : p.obj tid = some obj)
    (ho : ∀ obj', o = some obj' → obj'.info.blockBase.Ids ∧ obj'.info.blockBase.HasTable)
    (hgone : ∀ n, p'.Gone n → p.Gone n ∨ (n = p.owner tid ∧ o = none))
    (hids : ∀ e ∈ p'.destroyed, e.2.info.blockBase.Ids) : ProcShape p' where
  ctx ctx hctx := by
    rw [h.after] at hctx
    obtain rfl := Option.some.inj hctx
    exact hp.ctx c h.before
  live tid' obj' hobj' := by
    rw [h.owner, h.count]
    by_cases hne : tid' = tid
    · subst hne
      rw [h.obj_self] at hobj'
      exact ⟨(hp.live _ obj hobj).1, ho obj' hobj'⟩
    · rw [h.obj_other hne] at hobj'
      exact hp.live tid' obj' hobj'
  inj tid₁ tid₂ obj₁ obj₂ h₁ h₂ howner := by
    rw [h.owner] at howner
    obtain ⟨_, h₁⟩ := h.obj_old hobj h₁
    obtain ⟨_, h₂⟩ := h.obj_old hobj h₂
    exact hp.inj tid₁ tid₂ _ _ h₁ h₂ howner
  gone n hn := by
    rw [h.count, h.owner]
    rcases hgone n hn with hold | ⟨rfl, ho⟩
    · refine ⟨(hp.gone n hold).1, fun tid' obj' hobj' => ?_⟩
      obtain ⟨_, hobj'⟩ := h.obj_old hobj hobj'
      exact (hp.gone n hold).2 tid' _ hobj'
    · refine ⟨(hp.live tid obj hobj).1, fun tid' obj' hobj' howner => ?_⟩
      obtain ⟨_, hold⟩ := h.obj_old hobj hobj'
      obtain rfl := hp.inj tid' tid _ _ hold hobj howner
      rw [h.obj_self, ho] at hobj'
      cases hobj'
  ids := hids

/-- The other allocation numbers have what they had. -/
lemma Replaced.other {o : Option MaptObj} (h : Replaced p p' c tid o) {n : Nat}
    (hn : n ≠ p.owner tid) (hdestroyed : ∀ obj, (n, obj) ∈ p'.destroyed ↔ (n, obj) ∈ p.destroyed) :
    p'.ownHeld n = p.ownHeld n := by
  refine ownHeld_congr (fun tid' obj' => ?_) hdestroyed (fun obj => ?_) (fun tid => ?_)
  · rw [h.owner]
    by_cases hne : tid' = tid
    · subst hne
      exact ⟨fun hlive => (hn hlive.2.symm).elim, fun hlive => (hn hlive.2.symm).elim⟩
    · rw [h.obj_other hne]
  · rw [h.forsaken]
  · rw [h.unput]

lemma ProcInv.append (h : ProcInv p) (hp : ProcShape p') (hinherited : p'.inherited = p.inherited)
    {ops : List (LedgerOp ProcResource)} (hevents : p'.events = p.events ++ ops)
    (hledger : Ledger p.held ops p'.held) : ProcInv p' where
  toProcShape := hp
  ledger := by
    rw [hinherited, hevents]
    exact h.ledger.append hledger

/-- A refused call changes nothing; an allocation still has its number. -/
lemma call_refused {op : Op} (hop : RefusedBy p.gUmmuCtx op)
    (halloc : ∀ tidAttr ptr env, op ≠ .allocate tidAttr ptr env) : p.call op = p := by
  obtain ⟨hret, hctx⟩ := hop
  cases op with
  | api tid call =>
    simp only [Process.call, hctx, List.map_nil, List.append_nil]
  | free tid =>
    simp only [Process.call, hctx, List.map_nil, List.append_nil, if_neg hret]
  | allocate tidAttr ptr env => exact (halloc tidAttr ptr env rfl).elim

/-- A call of `ummu_grant` or an ungrant. -/
lemma ProcInv.api (h : ProcInv p) (tid : BitVec 32) (call : ApiCall) :
    ProcInv (p.call (.api tid call)) := by
  rcases onCtx_api p.gUmmuCtx tid call with hrefused | ⟨c, obj, hc, hmap, hrun⟩
  · rw [call_refused hrefused (fun _ _ _ he => by cases he)]
    exact h
  · have hobj : p.obj tid = some obj := by
      rw [Process.obj, hc, Option.bind_some, hmap]
    obtain ⟨_, hids, htable⟩ := h.live tid obj hobj
    obtain ⟨hids', htable', hholds⟩ := run_held hids htable tid call
    have hreplaced : Replaced p (p.call (.api tid call)) c tid
        (some { obj with info := (call.run obj.info).info }) :=
      ⟨hc, congrArg Prod.fst hrun, rfl, rfl, rfl, rfl⟩
    have hshape : ProcShape (p.call (.api tid call)) := by
      refine hreplaced.shape h.toProcShape hobj (fun obj' ho => ?_) (fun n hn => Or.inl hn) h.ids
      obtain rfl := Option.some.inj ho
      exact ⟨hids', htable'⟩
    have hevents : (p.call (.api tid call)).events =
        p.events ++ (resourceEvents (call.run obj.info).trace).map (ownOp (p.owner tid)) := by
      simp only [Process.call, hrun]
      rfl
    refine h.append hshape rfl hevents (held_step ?_ (fun n hn => ?_) ?_)
    · rw [hreplaced.before, hreplaced.after]
      rfl
    · exact hreplaced.other hn (fun _ => Iff.rfl)
    · have hafter := hshape.ownHeld_live hreplaced.obj_self
      rw [hreplaced.owner] at hafter
      rw [h.ownHeld_live hobj, hafter]
      exact hholds

/-- What `ummu_free_tid` or `ummu_uninit` leaves of an object and its tid. -/
lemma destroy_holds (hids : obj.info.blockBase.Ids) (tid : BitVec 32) :
    Holds (insert (.tid tid) obj.held) (ummuMaptDestroy obj)
      (insert (.tid tid) obj.info.blockBase.leaked) := by
  have hclear : ∀ t, t ≠ .driver → Clear t (insert (.tid tid) ∅) :=
    fun t ht => Clear.empty.insert (fun h => ht h.symm)
  have hdestroy := maptDestroy_holds (hclear .info (by decide)) (hclear .queue (by decide))
    (hclear .base (by decide)) hids
  rw [insert_empty_eq, Set.singleton_union, Set.singleton_union] at hdestroy
  exact hdestroy

/-- A call of `ummu_free_tid`. -/
lemma ProcInv.free (h : ProcInv p) (tid : BitVec 32) : ProcInv (p.call (.free tid)) := by
  rcases onCtx_free p.gUmmuCtx tid with hrefused | ⟨c, obj, hc, hmap, hrun⟩
  · rw [call_refused hrefused (fun _ _ _ he => by cases he)]
    exact h
  · have hobj : p.obj tid = some obj := by
      rw [Process.obj, hc, Option.bind_some, hmap]
    obtain ⟨hcount, hids, _⟩ := h.live tid obj hobj
    have hcall : p.call (.free tid) = { p with
        gUmmuCtx := some { c with maptMap := Function.update c.maptMap tid none }
        events := p.events ++
          (ummuMaptDestroy obj ++ ummuPutTid c.sharedFd tid).map (ownOp (p.owner tid))
        destroyed := p.destroyed ++ [(p.owner tid, obj)] } := by
      simp only [Process.call, hrun, if_true, Process.objs, List.filterMap_cons, hobj,
        Option.map_some, List.filterMap_nil, Process.number]
    have hreplaced : Replaced p (p.call (.free tid)) c tid none := by
      rw [hcall]
      exact ⟨hc, rfl, rfl, rfl, rfl, rfl⟩
    have hdestroyed : ∀ e, e ∈ (p.call (.free tid)).destroyed ↔
        e ∈ p.destroyed ∨ e = (p.owner tid, obj) := by
      intro e
      rw [hcall, List.mem_append, List.mem_singleton]
    have hshape : ProcShape (p.call (.free tid)) := by
      refine hreplaced.shape h.toProcShape hobj (fun obj' ho => by cases ho) (fun n hn => ?_)
        (fun e he => ?_)
      · rcases hn with ⟨obj', hmem⟩ | ⟨obj', hmem⟩ | ⟨tid', hmem⟩
        · rcases (hdestroyed _).mp hmem with hold | hnew
          · exact Or.inl (Or.inl ⟨obj', hold⟩)
          · exact Or.inr ⟨congrArg Prod.fst hnew, rfl⟩
        · rw [hreplaced.forsaken] at hmem
          exact Or.inl (Or.inr (Or.inl ⟨obj', hmem⟩))
        · rw [hreplaced.unput] at hmem
          exact Or.inl (Or.inr (Or.inr ⟨tid', hmem⟩))
      · rcases (hdestroyed e).mp he with hold | rfl
        · exact h.ids e hold
        · exact hids
    have hleft : (p.call (.free tid)).ownHeld (p.owner tid) = obj.info.blockBase.leaked := by
      have hgone : ¬p.Gone (p.owner tid) := fun hgone => (h.gone _ hgone).2 tid obj hobj rfl
      have hnone : ∀ tid' obj', (p.call (.free tid)).obj tid' = some obj' →
          (p.call (.free tid)).owner tid' ≠ p.owner tid :=
        (hshape.gone (p.owner tid) (Or.inl ⟨obj, (hdestroyed _).mpr (Or.inr rfl)⟩)).2
      ext r
      constructor
      · rintro (⟨tid', obj', hobj', howner, _⟩ | ⟨obj', hmem, hr⟩ | ⟨obj', hmem, _⟩ |
          ⟨tid', hmem, _⟩)
        · exact (hnone tid' obj' hobj' howner).elim
        · rcases (hdestroyed _).mp hmem with hold | hnew
          · exact (hgone (Or.inl ⟨obj', hold⟩)).elim
          · obtain rfl := congrArg Prod.snd hnew
            exact hr
        · rw [hreplaced.forsaken] at hmem
          exact (hgone (Or.inr (Or.inl ⟨obj', hmem⟩))).elim
        · rw [hreplaced.unput] at hmem
          exact (hgone (Or.inr (Or.inr ⟨tid', hmem⟩))).elim
      · exact fun hr => Or.inr (Or.inl ⟨obj, (hdestroyed _).mpr (Or.inr rfl), hr⟩)
    refine h.append hshape (by rw [hcall]) (by rw [hcall]) (held_step ?_ (fun n hn => ?_) ?_)
    · rw [hreplaced.before, hreplaced.after]
      rfl
    · refine hreplaced.other hn (fun obj' => ?_)
      rw [hdestroyed]
      exact or_iff_left (fun hnew => hn (congrArg Prod.fst hnew))
    · rw [h.ownHeld_live hobj, hleft, ummuPutTid, if_neg (h.ctx c hc).1]
      have hnot : .tid tid ∉ obj.info.blockBase.leaked :=
        (leaked_clear (by decide : Stage.driver ≠ .base)).not_mem rfl
      exact (destroy_holds hids tid).append (.release hnot)

/-- An allocation that fails has given back what it took. -/
lemma ProcInv.allocate_failed (h : ProcInv p) {tidAttr ptr : Option (BitVec 32)}
    {env : AllocateEnv} (hret : (ummuAllocateTid p.gUmmuCtx tidAttr ptr env).ret ≠ 0)
    (hctx : (ummuAllocateTid p.gUmmuCtx tidAttr ptr env).ctx = p.gUmmuCtx)
    (hholds : Holds ∅ (ummuAllocateTid p.gUmmuCtx tidAttr ptr env).events ∅) :
    ProcInv (p.call (.allocate tidAttr ptr env)) := by
  have hcall : p.call (.allocate tidAttr ptr env) = { p with
      events := p.events ++
        (ummuAllocateTid p.gUmmuCtx tidAttr ptr env).events.map (ownOp p.count)
      count := p.count + 1 } := by
    unfold Process.call
    simp only [Op.onCtx, hctx, Process.number]
    rw [if_neg hret]
  have hshape : ProcShape (p.call (.allocate tidAttr ptr env)) := by
    rw [hcall]
    refine ⟨h.ctx, fun tid obj hobj => ?_, h.inj, fun n hn => ?_, h.ids⟩
    · obtain ⟨hcount, hrest⟩ := h.live tid obj hobj
      exact ⟨Nat.lt_succ_of_lt hcount, hrest⟩
    · obtain ⟨hcount, hrest⟩ := h.gone n hn
      exact ⟨Nat.lt_succ_of_lt hcount, hrest⟩
  refine h.append hshape (by rw [hcall]) (by rw [hcall]) (held_step (by rw [hcall]) ?_ ?_)
  · intro n _
    rw [hcall]
    exact ownHeld_congr (fun _ _ => Iff.rfl) (fun _ => Iff.rfl) (fun _ => Iff.rfl)
      (fun _ => Iff.rfl)
  · have hafter : (p.call (.allocate tidAttr ptr env)).ownHeld p.count = p.ownHeld p.count := by
      rw [hcall]
      exact ownHeld_congr (fun _ _ => Iff.rfl) (fun _ => Iff.rfl) (fun _ => Iff.rfl)
        (fun _ => Iff.rfl)
    rw [hafter, h.ownHeld_new (le_refl _)]
    exact hholds

/-- An allocation that succeeds leaves one tid more. -/
lemma ProcInv.allocate_done (h : ProcInv p) {tidAttr ptr : Option (BitVec 32)}
    {env : AllocateEnv} (hret : (ummuAllocateTid p.gUmmuCtx tidAttr ptr env).ret = 0)
    (hdone : Allocation p.gUmmuCtx ptr (ummuAllocateTid p.gUmmuCtx tidAttr ptr env)) :
    ProcInv (p.call (.allocate tidAttr ptr env)) := by
  obtain ⟨c, obj, hc, hnew, hctx, htid, hfd, _, hids, hfresh, hholds⟩ := hdone.done hret
  have hcall : p.call (.allocate tidAttr ptr env) = { p with
      gUmmuCtx := some { c with
        maptMap := Function.update c.maptMap obj.info.tid (some obj) }
      events := p.events ++
        (ummuAllocateTid p.gUmmuCtx tidAttr ptr env).events.map (ownOp p.count)
      count := p.count + 1
      owner := Function.update p.owner obj.info.tid p.count } := by
    unfold Process.call
    simp only [Op.onCtx, hctx, htid, Process.number, Option.elim_some]
    rw [if_pos hret]
  generalize p.call (.allocate tidAttr ptr env) = p' at hcall ⊢
  have hself : p'.obj obj.info.tid = some obj := by
    rw [hcall]
    exact Function.update_self ..
  have hother : ∀ tid, tid ≠ obj.info.tid → p'.obj tid = p.obj tid := by
    intro tid hne
    rw [hcall, Process.obj, Process.obj, hc, Option.bind_some]
    exact Function.update_of_ne hne ..
  have howner : ∀ tid, tid ≠ obj.info.tid → p'.owner tid = p.owner tid := by
    intro tid hne
    rw [hcall]
    exact Function.update_of_ne hne ..
  have hselfOwner : p'.owner obj.info.tid = p.count := by
    rw [hcall]
    exact Function.update_self ..
  have hcount : p'.count = p.count + 1 := by rw [hcall]
  have hgone : ∀ n, p'.Gone n ↔ p.Gone n := by
    intro n
    rw [hcall]
    rfl
  have hold : ∀ tid obj', tid ≠ obj.info.tid → p'.obj tid = some obj' →
      p'.owner tid < p.count := by
    intro tid obj' hne hobj'
    rw [hother tid hne] at hobj'
    rw [howner tid hne]
    exact (h.live tid obj' hobj').1
  have hshape : ProcShape p' := by
    refine ⟨fun ctx hctx' => ?_, fun tid obj' hobj' => ?_, fun tid₁ tid₂ obj₁ obj₂ h₁ h₂ h12 => ?_,
      fun n hn => ?_, ?_⟩
    · rw [hcall] at hctx'
      obtain rfl := Option.some.inj hctx'
      exact h.ctx c hc
    · by_cases hne : tid = obj.info.tid
      · subst hne
        obtain rfl := Option.some.inj (hself.symm.trans hobj')
        rw [hselfOwner, hcount]
        refine ⟨Nat.lt_succ_self _, hids, ?_⟩
        cases hb : obj.info.blockBase with
        | entryBlock node => trivial
        | tableCtx c' t =>
          rw [hb] at hfresh
          rw [hfresh.1]
          rfl
      · have hlt := hold tid obj' hne hobj'
        rw [hother tid hne] at hobj'
        rw [hcount]
        exact ⟨Nat.lt_succ_of_lt hlt, (h.live tid obj' hobj').2⟩
    · by_cases hne₁ : tid₁ = obj.info.tid
      · by_cases hne₂ : tid₂ = obj.info.tid
        · rw [hne₁, hne₂]
        · have hlt := hold tid₂ obj₂ hne₂ h₂
          rw [← h12, hne₁, hselfOwner] at hlt
          exact (Nat.lt_irrefl _ hlt).elim
      · by_cases hne₂ : tid₂ = obj.info.tid
        · have hlt := hold tid₁ obj₁ hne₁ h₁
          rw [h12, hne₂, hselfOwner] at hlt
          exact (Nat.lt_irrefl _ hlt).elim
        · rw [howner tid₁ hne₁, howner tid₂ hne₂] at h12
          rw [hother tid₁ hne₁] at h₁
          rw [hother tid₂ hne₂] at h₂
          exact h.inj tid₁ tid₂ obj₁ obj₂ h₁ h₂ h12
    · obtain ⟨hlt, hrest⟩ := h.gone n ((hgone n).mp hn)
      rw [hcount]
      refine ⟨Nat.lt_succ_of_lt hlt, fun tid obj' hobj' => ?_⟩
      by_cases hne : tid = obj.info.tid
      · rw [hne, hselfOwner]
        exact (Nat.ne_of_lt hlt).symm
      · rw [hother tid hne] at hobj'
        rw [howner tid hne]
        exact hrest tid obj' hobj'
    · rw [hcall]
      exact h.ids
  refine h.append hshape (by rw [hcall]) (by rw [hcall]) (held_step ?_ (fun n hn => ?_) ?_)
  · rw [hcall, hc]
    rfl
  · refine ownHeld_congr (fun tid obj' => ?_) (fun _ => by rw [hcall]) (fun _ => by rw [hcall])
      (fun _ => by rw [hcall])
    by_cases hne : tid = obj.info.tid
    · have habsent : p.obj tid = none := by
        rw [hne, Process.obj, hc, Option.bind_some, hnew]
      rw [hne, hselfOwner, ← hne, habsent]
      exact ⟨fun hlive => (hn hlive.2.symm).elim, fun hlive => by cases hlive.1⟩
    · rw [hother tid hne, howner tid hne]
  · rw [h.ownHeld_new (le_refl _), ← hselfOwner, hshape.ownHeld_live hself]
    exact hholds

/-- A public call. -/
lemma ProcInv.call (h : ProcInv p) {op : Op} (hmapped : op.Mapped) : ProcInv (p.call op) := by
  cases op with
  | api tid call => exact h.api tid call
  | free tid => exact h.free tid
  | allocate tidAttr ptr env =>
    have hclean := @allocateTid_clean False tidAttr ptr env p.gUmmuCtx hmapped
      (fun c hc => (h.ctx c hc).2)
    by_cases hret : (ummuAllocateTid p.gUmmuCtx tidAttr ptr env).ret = 0
    · exact h.allocate_done hret hclean
    · obtain ⟨hctx, _, hholds⟩ := hclean.failed hret
      exact h.allocate_failed hret hctx hholds

end Steps

end Ummu
