import Ummu.ProcessLedger

/-!
# The runs of a process

From `ummu_init` over calls and forks to `ummu_uninit`: the ledger of every run, when the end of a
process is complete, and what the child of a fork can touch.
-/

namespace Ummu

open Lib Process

section Ends

variable {p p' : Process} {tid : BitVec 32} {obj : MaptObj} {order : List (BitVec 32)}
  {env : CtxEnv} {n : Nat} {r : Resource}

lemma Process.Listing.mem (horder : p.Listing order) (hobj : p.obj tid = some obj) : tid ∈ order := by
  rw [horder.2, hobj]
  rfl

/-- An allocation number that no listed tid has is that of no tid of the map. -/
lemma Process.Listing.owner_ne (horder : p.Listing order) (hn : ∀ tid ∈ order, p.owner tid ≠ n)
    (tid : BitVec 32) (obj : MaptObj) (hobj : p.obj tid = some obj) : p.owner tid ≠ n :=
  hn tid (horder.mem hobj)

lemma mem_objs (horder : p.Listing order) :
    (n, obj) ∈ p.objs order ↔ ∃ tid, p.obj tid = some obj ∧ p.owner tid = n := by
  rw [Process.objs, List.mem_filterMap]
  constructor
  · rintro ⟨tid, _, hmap⟩
    obtain ⟨obj', hobj, heq⟩ := Option.map_eq_some_iff.mp hmap
    obtain ⟨rfl, rfl⟩ := Prod.mk.inj heq
    exact ⟨tid, hobj, rfl⟩
  · rintro ⟨tid, hobj, rfl⟩
    refine ⟨tid, horder.mem hobj, ?_⟩
    rw [hobj]
    rfl

lemma objHeld_clear : Clear .driver obj.held := by
  have hqueue : Stage.driver ≠ .queue := by decide
  have hbase : Stage.driver ≠ .base := by decide
  exact ((queueHeld_clear hqueue).insert (by decide)).union (held_clear hbase)

/-- A new context has no tids. -/
lemma newCtx_some {c : UmmuCtx} (h : (newCtx env).1 = some c) :
    ¬c.sharedFd < 0 ∧ c.ctxMutex = false ∧ c.maptMap = fun _ => none := by
  unfold newCtx ummuCtxInit at h
  by_cases halloc : env.ctxAlloc = false
  · rw [if_pos halloc] at h
    cases h
  rw [if_neg halloc] at h
  by_cases hfd : env.openFd < 0
  · have henodev : (-enodev : Int) ≠ 0 := by decide
    simp only [if_pos hfd, if_pos henodev] at h
    cases h
  simp only [if_neg hfd] at h
  by_cases hmap : env.mapCreate = false
  · have henomem : (-enomem : Int) ≠ 0 := by decide
    simp only [if_pos hmap, if_pos henomem] at h
    cases h
  · have hzero : ¬((0 : Int) ≠ 0) := by decide
    simp only [if_neg hmap, if_neg hzero] at h
    obtain rfl := Option.some.inj h
    exact ⟨hfd, rfl, rfl⟩

/-- What a property of the tid with an allocation number says. -/
lemma ProcShape.live_iff (h : ProcShape p) (hobj : p.obj tid = some obj)
    {Q : BitVec 32 → MaptObj → Prop} :
    (∃ tid' obj', p.obj tid' = some obj' ∧ p.owner tid' = p.owner tid ∧ Q tid' obj') ↔
      Q tid obj := by
  constructor
  · rintro ⟨tid', obj', hobj', howner, hQ⟩
    obtain rfl := h.inj tid' tid obj' obj hobj' hobj howner
    obtain rfl := Option.some.inj (hobj'.symm.trans hobj)
    exact hQ
  · exact fun hQ => ⟨tid, obj, hobj, rfl, hQ⟩

/-- A process without tids whose history names the same allocation numbers. -/
lemma ProcShape.emptied (h : ProcShape p) (hcount : p'.count = p.count)
    (hctx : ∀ c, p'.gUmmuCtx = some c → ¬c.sharedFd < 0 ∧ c.ctxMutex = false)
    (hnone : ∀ tid, p'.obj tid = none)
    (hgone : ∀ n, p'.Gone n → p.Gone n ∨ ∃ tid obj, p.obj tid = some obj ∧ p.owner tid = n)
    (hids : ∀ e ∈ p'.destroyed, e.2.info.blockBase.Ids) : ProcShape p' where
  ctx := hctx
  live tid obj hobj := by
    rw [hnone] at hobj
    cases hobj
  inj tid tid' obj obj' hobj := by
    rw [hnone] at hobj
    cases hobj
  gone n hn := by
    refine ⟨?_, fun tid obj hobj => ?_⟩
    · rw [hcount]
      rcases hgone n hn with hold | ⟨tid, obj, hobj, rfl⟩
      · exact (h.gone n hold).1
      · exact (h.live tid obj hobj).1
    · rw [hnone] at hobj
      cases hobj
  ids := hids

/-- What `ummu_uninit` leaves: each tid of the map, with what the teardown of its object misses. -/
lemma mem_uninit (horder : p.Listing order) : r ∈ (p.ummuUninit order).ownHeld n ↔
    (∃ tid obj, p.obj tid = some obj ∧ p.owner tid = n ∧
      r ∈ insert (.tid tid) obj.info.blockBase.leaked) ∨
    (∃ obj, (n, obj) ∈ p.destroyed ∧ r ∈ obj.info.blockBase.leaked) ∨
    (∃ obj, (n, obj) ∈ p.forsaken ∧ r ∈ obj.held \ {.maptInfo}) ∨
    ∃ tid, (n, tid) ∈ p.unput ∧ r = .tid tid := by
  constructor
  · rintro (⟨tid, obj, hobj, _⟩ | ⟨obj, hmem, hr⟩ | hforsaken | ⟨tid, hmem, hr⟩)
    · cases hobj
    · rcases List.mem_append.mp hmem with hold | hnew
      · exact Or.inr (Or.inl ⟨obj, hold, hr⟩)
      · obtain ⟨tid, hobj, howner⟩ := (mem_objs horder).mp hnew
        exact Or.inl ⟨tid, obj, hobj, howner, Or.inr hr⟩
    · exact Or.inr (Or.inr (Or.inl hforsaken))
    · rcases List.mem_append.mp hmem with hold | hnew
      · exact Or.inr (Or.inr (Or.inr ⟨tid, hold, hr⟩))
      · obtain ⟨tid', hmem', heq⟩ := List.mem_map.mp hnew
        obtain ⟨howner, rfl⟩ := Prod.mk.inj heq
        obtain ⟨obj, hobj⟩ := Option.isSome_iff_exists.mp ((horder.2 tid').mp hmem')
        exact Or.inl ⟨tid', obj, hobj, howner, Or.inl hr⟩
  · rintro (⟨tid, obj, hobj, howner, hr⟩ | ⟨obj, hmem, hr⟩ | hforsaken | ⟨tid, hmem, hr⟩)
    · rcases hr with hr | hr
      · refine Or.inr (Or.inr (Or.inr ⟨tid, List.mem_append_right _ ?_, hr⟩))
        rw [← howner]
        exact List.mem_map_of_mem (horder.mem hobj)
      · refine Or.inr (Or.inl ⟨obj, List.mem_append_right _ ?_, hr⟩)
        exact (mem_objs horder).mpr ⟨tid, hobj, howner⟩
    · exact Or.inr (Or.inl ⟨obj, List.mem_append_left _ hmem, hr⟩)
    · exact Or.inr (Or.inr (Or.inl hforsaken))
    · exact Or.inr (Or.inr (Or.inr ⟨tid, List.mem_append_left _ hmem, hr⟩))

/-- The end of a process. -/
lemma ProcInv.uninit (h : ProcInv p) (horder : p.Listing order) :
    ProcInv (p.ummuUninit order) := by
  have hshape : ProcShape (p.ummuUninit order) := by
    refine h.emptied rfl (fun c hc => by cases hc) (fun _ => rfl) (fun n hn => ?_) (fun e he => ?_)
    · rcases hn with ⟨obj, hmem⟩ | hforsaken | ⟨tid, hmem⟩
      · rcases List.mem_append.mp hmem with hold | hnew
        · exact Or.inl (Or.inl ⟨obj, hold⟩)
        · obtain ⟨tid, hobj, howner⟩ := (mem_objs horder).mp hnew
          exact Or.inr ⟨tid, obj, hobj, howner⟩
      · exact Or.inl (Or.inr (Or.inl hforsaken))
      · rcases List.mem_append.mp hmem with hold | hnew
        · exact Or.inl (Or.inr (Or.inr ⟨tid, hold⟩))
        · obtain ⟨tid', hmem', heq⟩ := List.mem_map.mp hnew
          obtain ⟨obj, hobj⟩ := Option.isSome_iff_exists.mp ((horder.2 tid').mp hmem')
          exact Or.inr ⟨tid', obj, hobj, (Prod.mk.inj heq).1⟩
    · rcases List.mem_append.mp he with hold | hnew
      · exact h.ids e hold
      · obtain ⟨n, obj⟩ := e
        obtain ⟨tid, hobj, _⟩ := (mem_objs horder).mp hnew
        exact (h.live tid obj hobj).2.1
  refine h.append hshape rfl rfl
    (h.closeCtx_ledger horder (fun n hn => ?_) (fun tid obj hobj => ?_))
  · have hnot := horder.owner_ne hn
    ext r
    rw [mem_uninit horder]
    constructor
    · rintro (⟨tid, obj, hobj, howner, _⟩ | hlost)
      · exact (hnot tid obj hobj howner).elim
      · exact Or.inr hlost
    · rintro (⟨tid, obj, hobj, howner, _⟩ | hlost)
      · exact (hnot tid obj hobj howner).elim
      · exact Or.inr hlost
  · have hgone : ¬p.Gone (p.owner tid) := fun hgone => (h.gone _ hgone).2 tid obj hobj rfl
    have hleft : (p.ummuUninit order).ownHeld (p.owner tid) =
        insert (.tid tid) obj.info.blockBase.leaked := by
      ext r
      refine Iff.trans (mem_uninit horder) (Iff.trans (or_iff_left ?_) (h.live_iff hobj))
      rintro (⟨obj', hmem, _⟩ | ⟨obj', hmem, _⟩ | ⟨tid', hmem, _⟩)
      · exact hgone (Or.inl ⟨obj', hmem⟩)
      · exact hgone (Or.inr (Or.inl ⟨obj', hmem⟩))
      · exact hgone (Or.inr (Or.inr ⟨tid', hmem⟩))
    rw [h.ownHeld_live hobj, hleft]
    exact destroy_holds (h.live tid obj hobj).2.1 tid

/-- The child of a fork has no tids. -/
lemma child_obj (tid : BitVec 32) : (p.childProcessAfterFork env order).obj tid = none := by
  rw [Process.obj]
  cases hc : (newCtx env).1 with
  | none =>
    simp only [Process.childProcessAfterFork, hc]
    rfl
  | some c =>
    simp only [Process.childProcessAfterFork, hc, Option.bind_some, (newCtx_some hc).2.2]

/-- What the child of a fork has beside its own: what was missed before, and of each tid of the
parent all but the `struct ummu_mapt_info`. -/
lemma mem_child (horder : p.Listing order) :
    r ∈ (p.childProcessAfterFork env order).ownHeld n ↔
    (∃ tid obj, p.obj tid = some obj ∧ p.owner tid = n ∧ r ∈ obj.held \ {.maptInfo}) ∨
    (∃ obj, (n, obj) ∈ p.destroyed ∧ r ∈ obj.info.blockBase.leaked) ∨
    ∃ obj, (n, obj) ∈ p.forsaken ∧ r ∈ obj.held \ {.maptInfo} := by
  constructor
  · rintro (⟨tid, obj, hobj, _⟩ | hdestroyed | ⟨obj, hmem, hr⟩ | ⟨tid, hmem, _⟩)
    · rw [child_obj] at hobj
      cases hobj
    · exact Or.inr (Or.inl hdestroyed)
    · rcases List.mem_append.mp hmem with hold | hnew
      · exact Or.inr (Or.inr ⟨obj, hold, hr⟩)
      · obtain ⟨tid, hobj, howner⟩ := (mem_objs horder).mp hnew
        exact Or.inl ⟨tid, obj, hobj, howner, hr⟩
    · cases hmem
  · rintro (⟨tid, obj, hobj, howner, hr⟩ | hdestroyed | ⟨obj, hmem, hr⟩)
    · refine Or.inr (Or.inr (Or.inl ⟨obj, List.mem_append_right _ ?_, hr⟩))
      exact (mem_objs horder).mpr ⟨tid, hobj, howner⟩
    · exact Or.inr (Or.inl hdestroyed)
    · exact Or.inr (Or.inr (Or.inl ⟨obj, List.mem_append_left _ hmem, hr⟩))

lemma ProcInv.child (h : ProcInv p) (horder : p.Listing order) :
    ProcInv (p.childProcessAfterFork env order) where
  toProcShape := by
    refine h.emptied rfl (fun c hc => ?_) child_obj (fun n hn => ?_) h.ids
    · exact ⟨(newCtx_some hc).1, (newCtx_some hc).2.1⟩
    · rcases hn with hdestroyed | ⟨obj, hmem⟩ | ⟨tid, hmem⟩
      · exact Or.inl (Or.inl hdestroyed)
      · rcases List.mem_append.mp hmem with hold | hnew
        · exact Or.inl (Or.inr (Or.inl ⟨obj, hold⟩))
        · obtain ⟨tid, hobj, howner⟩ := (mem_objs horder).mp hnew
          exact Or.inr ⟨tid, obj, hobj, howner⟩
      · cases hmem
  ledger := by
    have hdriver : ∀ obj : MaptObj, ∀ r ∈ obj.held, r.stage ≠ .driver :=
      fun obj r hr => @objHeld_clear obj r hr
    have hclosed : Ledger
        (procHeld p.gUmmuCtx.isSome (fun n => {r ∈ p.ownHeld n | r.stage ≠ .driver}))
        (p.closeCtx order none)
        (procHeld false (p.childProcessAfterFork env order).ownHeld) := by
      refine h.closeCtx_ledger horder (fun n hn => ?_) (fun tid obj hobj => ?_)
      · have hnot := horder.owner_ne hn
        ext r
        rw [mem_child horder]
        constructor
        · rintro (⟨tid, obj, hobj, howner, _⟩ | ⟨obj, hmem, hr⟩ | ⟨obj, hmem, hr⟩)
          · exact (hnot tid obj hobj howner).elim
          · have hbase : Stage.driver ≠ .base := by decide
            exact ⟨Or.inr (Or.inl ⟨obj, hmem, hr⟩), leaked_clear hbase r hr⟩
          · exact ⟨Or.inr (Or.inr (Or.inl ⟨obj, hmem, hr⟩)), hdriver obj r hr.1⟩
        · rintro ⟨⟨tid, obj, hobj, howner, _⟩ | hdestroyed | hforsaken | ⟨tid, _, rfl⟩, hstage⟩
          · exact (hnot tid obj hobj howner).elim
          · exact Or.inr (Or.inl hdestroyed)
          · exact Or.inr (Or.inr hforsaken)
          · exact (hstage rfl).elim
      · have hgone : ¬p.Gone (p.owner tid) := fun hgone => (h.gone _ hgone).2 tid obj hobj rfl
        have hheld : {r ∈ p.ownHeld (p.owner tid) | r.stage ≠ .driver} = obj.held := by
          rw [h.ownHeld_live hobj]
          ext r
          constructor
          · rintro ⟨rfl | hr, hstage⟩
            · exact (hstage rfl).elim
            · exact hr
          · exact fun hr => ⟨Or.inr hr, hdriver obj r hr⟩
        have hleft : (p.childProcessAfterFork env order).ownHeld (p.owner tid) =
            obj.held \ {.maptInfo} := by
          ext r
          refine Iff.trans (mem_child horder) (Iff.trans (or_iff_left ?_) (h.live_iff hobj))
          rintro (⟨obj', hmem, _⟩ | ⟨obj', hmem, _⟩)
          · exact hgone (Or.inl ⟨obj', hmem⟩)
          · exact hgone (Or.inr (Or.inl ⟨obj', hmem⟩))
        rw [hheld, hleft]
        exact Ledger.one_give (Or.inl (Set.mem_insert _ _))
    exact hclosed.append (newCtx_ledger env)

lemma ProcInv.fork (h : ProcInv p) (horder : p.Listing order) : ProcInv (p.fork env order) := by
  unfold Process.fork
  by_cases hhandler : p.forkHandler = true
  · rw [if_pos hhandler]
    exact h.child horder
  · rw [if_neg hhandler]
    exact ⟨⟨h.ctx, h.live, h.inj, h.gone, h.ids⟩, .nil⟩

lemma ProcInv.next (h : ProcInv p) (hnext : ProcNext p p') : ProcInv p' := by
  cases hnext with
  | call op hmapped => exact h.call hmapped
  | fork env horder => exact h.fork horder
  | exit horder => exact h.uninit horder

lemma init_inv (atfork : Int) (env : CtxEnv) : ProcInv (ummuInit atfork env) := by
  have hnone : ∀ tid, (ummuInit atfork env).obj tid = none := by
    intro tid
    rw [Process.obj]
    cases hc : (newCtx env).1 with
    | none =>
      simp only [ummuInit, hc]
      rfl
    | some c => simp only [ummuInit, hc, Option.bind_some, (newCtx_some hc).2.2]
  have hgone : ∀ n, ¬(ummuInit atfork env).Gone n := by
    rintro n (⟨_, hmem⟩ | ⟨_, hmem⟩ | ⟨_, hmem⟩)
    · cases hmem
    · cases hmem
    · cases hmem
  have hshape : ProcShape (ummuInit atfork env) := by
    refine ⟨fun c hc => ?_, fun tid obj hobj => ?_, fun tid _ _ _ hobj => ?_,
      fun n hn => (hgone n hn).elim, fun e he => by cases he⟩
    · exact ⟨(newCtx_some hc).1, (newCtx_some hc).2.1⟩
    · rw [hnone] at hobj
      cases hobj
    · rw [hnone] at hobj
      cases hobj
  refine ⟨hshape, ?_⟩
  have hempty : procHeld false (ummuInit atfork env).ownHeld = ∅ := by
    rw [Set.eq_empty_iff_forall_notMem]
    rintro r (⟨h, _⟩ | ⟨n, r', rfl, hr⟩)
    · cases h
    · rw [hshape.ownHeld_new (Nat.zero_le n)] at hr
      exact hr
  have hledger := @newCtx_ledger (ummuInit atfork env).ownHeld env
  rw [hempty] at hledger
  exact hledger

theorem procReach_inv (h : ProcReach p) : ProcInv p := by
  apply h.invariant
  · rintro p ⟨atfork, env, rfl⟩
    exact init_inv atfork env
  · exact fun p p' hp hnext => hp.next hnext

end Ends

section Runs

variable {p q : Process} {order : List (BitVec 32)} {env : CtxEnv}

/-- In every run of a process and its descendants everything is taken and given back in order, and
what is held is the context, the tids of the map with their objects, and what was missed. -/
theorem process_ledger (h : ProcReach p) : Ledger p.inherited p.events p.held :=
  (procReach_inv h).ledger

/-- A process that has allocated a tid, as its child sees it. -/
def forkedEntry : Process :=
  ((ummuInit 0 ⟨true, 3, true⟩).call allocateEntry).fork ⟨true, 4, true⟩ [1]

lemma entry_reach : ProcReach ((ummuInit 0 ⟨true, 3, true⟩).call allocateEntry) := by
  have hmaps : FreshMaps False [] := fun mem hmem => by cases hmem
  exact .step (.start ⟨0, ⟨true, 3, true⟩, rfl⟩) (.call allocateEntry hmaps)

lemma entry_listing : Listing ((ummuInit 0 ⟨true, 3, true⟩).call allocateEntry) [1] := by
  refine ⟨List.nodup_singleton _, fun tid => ?_⟩
  rw [List.mem_singleton]
  by_cases htid : tid = 1
  · subst htid
    exact ⟨fun _ => rfl, fun _ => rfl⟩
  · have hnone : ((ummuInit 0 ⟨true, 3, true⟩).call allocateEntry).obj tid = none :=
      Function.update_of_ne htid ..
    rw [hnone]
    exact ⟨fun h => (htid h).elim, fun h => by cases h⟩

theorem process_ledger_forked :
    Ledger forkedEntry.inherited forkedEntry.events forkedEntry.held :=
  process_ledger (.step entry_reach (.fork _ entry_listing))

/-- An object has something beside its `struct ummu_mapt_info`. -/
lemma base_held (obj : MaptObj) : ∃ r, r ∈ obj.held \ {.maptInfo} := by
  unfold MaptObj.held
  cases obj.info.blockBase with
  | entryBlock node => exact ⟨.entryBuf blockSize4K, Or.inr rfl, fun h => by cases h⟩
  | tableCtx c t => exact ⟨.tableCtx, Or.inr (Or.inl (Or.inl rfl)), fun h => by cases h⟩

/-- At its end a process has given back everything, each thing once, if and only if every tid was
freed before, no tid was left at an earlier end or by a fork, and each table that was torn down had
the first level block of each of its mapt blocks in use. -/
theorem uninit_complete_iff (h : ProcReach p) (horder : p.Listing order) :
    Ledger (p.ummuUninit order).inherited (p.ummuUninit order).events ∅ ↔
      (∀ tid, p.obj tid = none) ∧ p.unput = [] ∧ p.forsaken = [] ∧
        ∀ e ∈ p.destroyed, e.2.info.blockBase.FirstInUse := by
  have hp := procReach_inv h
  have hledger := (hp.uninit horder).ledger
  have hiff : Ledger (p.ummuUninit order).inherited (p.ummuUninit order).events ∅ ↔
      ∀ n r, r ∉ (p.ummuUninit order).ownHeld n := by
    constructor
    · intro hempty n r hr
      have hmem : .own n r ∈ (p.ummuUninit order).held := Or.inr ⟨n, r, rfl, hr⟩
      rw [hledger.unique hempty] at hmem
      exact hmem
    · intro hnone
      have hempty : (p.ummuUninit order).held = ∅ := by
        rw [Set.eq_empty_iff_forall_notMem]
        rintro r (⟨hctx, _⟩ | ⟨n, r', rfl, hr⟩)
        · cases hctx
        · exact hnone n r' hr
      rwa [hempty] at hledger
  rw [hiff]
  simp only [mem_uninit horder]
  constructor
  · intro hnone
    refine ⟨fun tid => ?_, ?_, ?_, fun e he => ?_⟩
    · rw [Option.eq_none_iff_forall_ne_some]
      intro obj hobj
      exact hnone _ (.tid tid) (Or.inl ⟨tid, obj, hobj, rfl, Or.inl rfl⟩)
    · rw [List.eq_nil_iff_forall_not_mem]
      rintro ⟨n, tid⟩ hmem
      exact hnone n (.tid tid) (Or.inr (Or.inr (Or.inr ⟨tid, hmem, rfl⟩)))
    · rw [List.eq_nil_iff_forall_not_mem]
      rintro ⟨n, obj⟩ hmem
      obtain ⟨r, hr⟩ := base_held obj
      exact hnone n r (Or.inr (Or.inr (Or.inl ⟨obj, hmem, hr⟩)))
    · rw [← leaked_iff (hp.ids e he), Set.eq_empty_iff_forall_notMem]
      intro r hr
      exact hnone e.1 r (Or.inr (Or.inl ⟨e.2, he, hr⟩))
  · rintro ⟨hobj, hunput, hforsaken, hdestroyed⟩ n r
      (⟨tid, obj, hmem, _⟩ | ⟨obj, hmem, hr⟩ | ⟨obj, hmem, _⟩ | ⟨tid, hmem, _⟩)
    · rw [hobj] at hmem
      cases hmem
    · rw [(leaked_iff (hp.ids _ hmem)).mpr (hdestroyed _ hmem)] at hr
      exact hr
    · rw [hforsaken] at hmem
      cases hmem
    · rw [hunput] at hmem
      cases hmem

/-- A process that ends with a tid still allocated. -/
theorem uninit_complete_iff_entry : ¬Ledger
    (((ummuInit 0 ⟨true, 3, true⟩).call allocateEntry).ummuUninit [1]).inherited
    (((ummuInit 0 ⟨true, 3, true⟩).call allocateEntry).ummuUninit [1]).events ∅ := by
  rw [uninit_complete_iff entry_reach entry_listing]
  rintro ⟨hobj, _⟩
  cases hobj 1

/-- What a child of a fork keeps of the parent's tids. -/
structure Inherits (p q : Process) : Prop where
  reach : ProcReach q
  count : p.count ≤ q.count
  owner : ∀ tid obj, q.obj tid = some obj → p.count ≤ q.owner tid
  forsaken : ∀ tid obj, p.obj tid = some obj → (p.owner tid, obj) ∈ q.forsaken

lemma fork_inherits (h : ProcReach p) (hhandler : p.forkHandler = true)
    (horder : p.Listing order) : Inherits p (p.fork env order) := by
  refine ⟨.step h (.fork env horder), ?_, ?_, ?_⟩
  · unfold Process.fork
    rw [if_pos hhandler]
    exact le_refl _
  · unfold Process.fork
    rw [if_pos hhandler]
    intro tid obj hobj
    rw [child_obj] at hobj
    cases hobj
  · unfold Process.fork
    rw [if_pos hhandler]
    exact fun tid obj hobj => List.mem_append_right _ ((mem_objs horder).mpr ⟨tid, hobj, rfl⟩)

/-- After a call a tid of the map was there before, or the call has allocated it. -/
lemma call_owner {op : Op} (hp : ProcInv p) (hmapped : op.Mapped) {tid : BitVec 32} {obj : MaptObj}
    (hobj : (p.call op).obj tid = some obj) :
    (∃ obj', p.obj tid = some obj' ∧ (p.call op).owner tid = p.owner tid) ∨
      (p.call op).owner tid = p.count := by
  have hold : ∀ c tid' o, p.gUmmuCtx = some c → c.maptMap tid' ≠ none →
      (p.call op).gUmmuCtx = some { c with maptMap := Function.update c.maptMap tid' o } →
      ∃ obj', p.obj tid = some obj' := by
    intro c tid' o hc hmem hafter
    rw [Process.obj, hafter, Option.bind_some] at hobj
    rw [Process.obj, hc, Option.bind_some]
    by_cases htid : tid = tid'
    · rw [htid]
      exact Option.ne_none_iff_exists'.mp hmem
    · exact ⟨obj, (Function.update_of_ne htid o c.maptMap).symm.trans hobj⟩
  cases op with
  | api tid' call =>
    rcases onCtx_api p.gUmmuCtx tid' call with hrefused | ⟨c, obj', hc, hmap, hrun⟩
    · rw [call_refused hrefused (fun _ _ _ he => by cases he)] at hobj
      exact Or.inl ⟨obj, hobj, rfl⟩
    · obtain ⟨obj'', hobj''⟩ := hold c tid' _ hc (by rw [hmap]; exact Option.some_ne_none _)
        (congrArg Prod.fst hrun)
      exact Or.inl ⟨obj'', hobj'', rfl⟩
  | free tid' =>
    rcases onCtx_free p.gUmmuCtx tid' with hrefused | ⟨c, obj', hc, hmap, hrun⟩
    · rw [call_refused hrefused (fun _ _ _ he => by cases he)] at hobj ⊢
      exact Or.inl ⟨obj, hobj, rfl⟩
    · have hafter : (p.call (.free tid')).gUmmuCtx =
          some { c with maptMap := Function.update c.maptMap tid' none } := by
        simp only [Process.call, hrun, if_true]
      have howner : (p.call (.free tid')).owner = p.owner := by
        simp only [Process.call, hrun, if_true]
      obtain ⟨obj'', hobj''⟩ := hold c tid' _ hc (by rw [hmap]; exact Option.some_ne_none _) hafter
      exact Or.inl ⟨obj'', hobj'', by rw [howner]⟩
  | allocate tidAttr ptr env =>
    have hclean := @allocateTid_clean False tidAttr ptr env p.gUmmuCtx hmapped
      (fun c hc => (hp.ctx c hc).2)
    by_cases hret : (ummuAllocateTid p.gUmmuCtx tidAttr ptr env).ret = 0
    · obtain ⟨c, obj', hc, _, hctx, htid, _⟩ := hclean.done hret
      have howner : (p.call (.allocate tidAttr ptr env)).owner =
          Function.update p.owner obj'.info.tid p.count := by
        simp only [Process.call, Op.onCtx, htid, Option.elim_some]
        exact if_pos hret
      rw [howner]
      by_cases hne : tid = obj'.info.tid
      · rw [hne]
        exact Or.inr (Function.update_self ..)
      · have hbefore : p.obj tid = some obj := by
          have hafter : (p.call (.allocate tidAttr ptr env)).gUmmuCtx = some { c with
              maptMap := Function.update c.maptMap obj'.info.tid (some obj') } := hctx
          rw [Process.obj, hafter, Option.bind_some] at hobj
          rw [Process.obj, hc, Option.bind_some]
          exact (Function.update_of_ne hne _ c.maptMap).symm.trans hobj
        exact Or.inl ⟨obj, hbefore, Function.update_of_ne hne ..⟩
    · obtain ⟨hctx, _⟩ := hclean.failed hret
      have howner : (p.call (.allocate tidAttr ptr env)).owner = p.owner := if_neg hret
      have hbefore : (p.call (.allocate tidAttr ptr env)).obj tid = p.obj tid :=
        congrArg (fun ctx : Option UmmuCtx => ctx.bind (fun c => c.maptMap tid)) hctx
      rw [hbefore] at hobj
      exact Or.inl ⟨obj, hobj, by rw [howner]⟩

lemma call_count (op : Op) : p.count ≤ (p.call op).count := by
  cases op with
  | api tid call => exact le_refl _
  | free tid =>
    simp only [Process.call]
    split_ifs
    · exact le_refl _
    · exact le_refl _
  | allocate tidAttr ptr env => exact Nat.le_succ _

lemma call_forsaken (op : Op) : (p.call op).forsaken = p.forsaken := by
  cases op with
  | api tid call => rfl
  | free tid =>
    simp only [Process.call]
    split_ifs
    · rfl
    · rfl
  | allocate tidAttr ptr env => rfl

lemma Inherits.next {q' : Process} (h : Inherits p q) (hnext : ProcNext q q') : Inherits p q' := by
  have hreach : ProcReach q' := .step h.reach hnext
  cases hnext with
  | call op hmapped =>
    refine ⟨hreach, le_trans h.count (call_count op), fun tid obj hobj => ?_,
      fun tid obj hobj => ?_⟩
    · rcases call_owner (procReach_inv h.reach) hmapped hobj with ⟨obj', hobj', howner⟩ | howner
      · rw [howner]
        exact h.owner tid obj' hobj'
      · rw [howner]
        exact h.count
    · rw [call_forsaken]
      exact h.forsaken tid obj hobj
  | @fork env order horder =>
    by_cases hhandler : q.forkHandler = true
    · unfold Process.fork at hreach ⊢
      rw [if_pos hhandler] at hreach ⊢
      refine ⟨hreach, h.count, fun tid obj hobj => ?_, fun tid obj hobj => ?_⟩
      · rw [child_obj] at hobj
        cases hobj
      · exact List.mem_append_left _ (h.forsaken tid obj hobj)
    · unfold Process.fork at hreach ⊢
      rw [if_neg hhandler] at hreach ⊢
      exact ⟨hreach, h.count, h.owner, h.forsaken⟩
  | exit horder =>
    refine ⟨hreach, h.count, fun tid obj hobj => ?_, h.forsaken⟩
    cases hobj

/-- In the child of a fork, and in its own children, a tid of the map is always one that was
allocated after the fork; calls on all other tids are refused and change nothing. All that the
parent held for its tids, but the `struct ummu_mapt_info`, is never given back. -/
theorem fork_child (h : ProcReach p) (hhandler : p.forkHandler = true) (horder : p.Listing order)
    (hq : Reachable (fun c => c = p.fork env order) ProcNext q) :
    (∀ tid obj, q.obj tid = some obj → p.count ≤ q.owner tid) ∧
      (∀ tid, q.obj tid = none → RefusedBy q.gUmmuCtx (.free tid) ∧
        ∀ call, RefusedBy q.gUmmuCtx (.api tid call)) ∧
      ∀ tid obj r, p.obj tid = some obj → r ∈ obj.held → r ≠ .maptInfo →
        .own (p.owner tid) r ∈ q.held := by
  have hinherits : Inherits p q := by
    apply hq.invariant
    · rintro c rfl
      exact fork_inherits h hhandler horder
    · exact fun c c' hc hnext => hc.next hnext
  refine ⟨hinherits.owner, fun tid habsent => ?_, fun tid obj r hobj hr hne => ?_⟩
  · exact ⟨refused_of_absent (Or.inr rfl) habsent,
      fun call => refused_of_absent (Or.inl ⟨call, rfl⟩) habsent⟩
  · have hmem := hinherits.forsaken tid obj hobj
    exact Or.inr ⟨_, r, rfl, Or.inr (Or.inr (Or.inl ⟨obj, hmem, hr, hne⟩))⟩

/-- The entry buffer of the parent's tid stays mapped in the child. -/
theorem fork_child_entry : .own 0 (.entryBuf blockSize4K) ∈ forkedEntry.held :=
  (fork_child entry_reach rfl entry_listing (.start rfl)).2.2 1 ⟨⟨1, true, false, true,
    .entryBlock EntryNode.zero⟩, .zero⟩ (.entryBuf blockSize4K) rfl (Or.inr rfl)
    (fun h => by cases h)

end Runs

end Ummu
