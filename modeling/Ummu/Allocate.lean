import Ummu.Lifetime

/-!
# A failed allocation leaks nothing

Every failing step of `ummu_allocate_tid` gives back what was taken before it, each thing once.
-/

namespace Ummu

open Lib Machine

/-- The stages of `ummu_allocate_tid`. -/
inductive Stage where
  | driver
  | info
  | queue
  | base
deriving DecidableEq

/-- The stage that takes a resource. -/
def Resource.stage : Resource → Stage
  | .tid _ => .driver
  | .maptInfo => .info
  | .queueArgs | .queueBuf _ _ => .queue
  | .entryBuf _ | .tableCtx | .segMng | .maptBlock _ | .tableBuf _ _ => .base

/-- Nothing of `H` is of stage `s`. -/
def Clear (s : Stage) (H : Set Resource) : Prop := ∀ r ∈ H, r.stage ≠ s

/-- What the queues of a tid hold. -/
def queueHeld (kcmdPlbi : Bool) (q : QueueCtx) : Set Resource :=
  {r | kcmdPlbi = false ∧ ∃ a rest, q.queue = a :: rest ∧
    (r = .queueArgs ∨ r = .queueBuf a.cmdEntry q.queueSize)}

/-- What the table or the entry of a tid holds. -/
def BlockBase.held : BlockBase → Set Resource
  | .entryBlock _ => {.entryBuf blockSize4K}
  | .tableCtx c t =>
    {r | r = .tableCtx ∨ (t.isSome = true ∧ r = .segMng)} ∪
      blocksHeld c.maptBlockArray c.blkExpSize

/-- The blocks of a table context carry their indices. -/
def BlockBase.Ids : BlockBase → Prop
  | .entryBlock _ => True
  | .tableCtx c _ => BlockIds c.maptBlockArray

def MaptObj.held (obj : MaptObj) : Set Resource :=
  insert .maptInfo (queueHeld obj.info.kcmdPlbi obj.queueCtx) ∪ obj.info.blockBase.held

section Stages

variable {H K : Set Resource} {s : Stage} {r : Resource} {es es' : List ResourceEvent}

lemma Clear.not_mem (h : Clear s H) (hr : r.stage = s) : r ∉ H := fun hmem => h r hmem hr

lemma Clear.union (h : Clear s H) (h' : Clear s K) : Clear s (H ∪ K) :=
  fun r hr => hr.elim (h r) (h' r)

lemma Clear.insert (h : Clear s H) (hr : r.stage ≠ s) : Clear s (insert r H) := by
  rintro r' (rfl | hr')
  · exact hr
  · exact h r' hr'

lemma Clear.empty : Clear s ∅ := fun _ h => h.elim

lemma Clear.noBlocks (h : Clear .base H) : NoBlocks H :=
  fun _ _ => ⟨h.not_mem rfl, h.not_mem rfl⟩

lemma queueHeld_clear {k : Bool} {q : QueueCtx} (hs : s ≠ .queue) : Clear s (queueHeld k q) := by
  rintro r ⟨_, a, rest, _, rfl | rfl⟩
  · exact fun h => hs h.symm
  · exact fun h => hs h.symm

lemma held_clear {b : BlockBase} (hs : s ≠ .base) : Clear s b.held := by
  intro r hr h
  apply hs
  rw [← h]
  cases b with
  | entryBlock node =>
    rw [Set.mem_singleton_iff.mp hr]
    rfl
  | tableCtx c t =>
    rcases hr with (rfl | ⟨_, rfl⟩) | ⟨k, _, rfl | rfl⟩
    · rfl
    · rfl
    · rfl
    · rfl

lemma Holds.append {H' H'' : Set Resource} (h : Holds H es H') (h' : Holds H' es' H'') :
    Holds H (es ++ es') H'' := by
  rw [Holds, List.map_append]
  exact Ledger.append h h'

lemma Holds.nil : Holds H [] H := Ledger.nil

lemma Holds.acquire (hr : r ∉ H) : Holds H [.acquire r] (Insert.insert r H) := Ledger.one_take hr

/-- What is held beside `H` is given back. -/
lemma Holds.release (hr : r ∉ H) : Holds (Insert.insert r H) [.release r] H := by
  have h := Ledger.one_give (Set.mem_insert r H)
  rwa [Set.insert_sdiff_of_mem _ (Set.mem_singleton r), Set.sdiff_singleton_eq_self hr] at h

end Stages

section Queue

variable {H : Set Resource} {k : Bool} {info : QueueInfo} {env : QueueEnv} {q : QueueCtx}

lemma queueHeld_kcmd : queueHeld true q = ∅ := by
  ext r
  simp [queueHeld]

lemma queueHeld_cons {a : QueueArgs} {rest : List QueueArgs} (hq : q.queue = a :: rest) :
    queueHeld false q = {.queueBuf a.cmdEntry q.queueSize, .queueArgs} := by
  ext r
  simp only [queueHeld, hq, true_and, Set.mem_ofPred_eq, Set.mem_insert_iff,
    Set.mem_singleton_iff, List.cons.injEq]
  constructor
  · rintro ⟨a', rest', ⟨rfl, rfl⟩, h⟩
    exact h.symm
  · exact fun h => ⟨a, rest, ⟨rfl, rfl⟩, h.symm⟩

/-- `ummu_queue_create` keeps what it took, or gives it back. -/
lemma queueCreate_holds (hH : Clear .queue H) :
    ((ummuQueueCreate k info env).1 = 0 ∧ Holds H (ummuQueueCreate k info env).2.2
      (H ∪ queueHeld k (ummuQueueCreate k info env).2.1)) ∨
    ((ummuQueueCreate k info env).1 ≠ 0 ∧ Holds H (ummuQueueCreate k info env).2.2 H) := by
  have henomem : (-enomem : Int) ≠ 0 := by decide
  have hargs : .queueArgs ∉ H := hH.not_mem rfl
  unfold ummuQueueCreate
  cases k with
  | true =>
    rw [if_pos rfl, queueHeld_kcmd, Set.union_empty]
    exact Or.inl ⟨rfl, .nil⟩
  | false =>
    rw [if_neg Bool.false_ne_true]
    by_cases halloc : env.argsAlloc = false
    · rw [if_pos halloc]
      exact Or.inr ⟨henomem, .nil⟩
    rw [if_neg halloc]
    simp only
    generalize hsize : queueBufSize env.getpagesize info * info.ummuCnt.setWidth 64 = size
    by_cases h0 : size = 0
    · rw [if_pos h0]
      exact Or.inr ⟨henomem, (Holds.acquire hargs).append (.release hargs)⟩
    rw [if_neg h0]
    cases env.queueMap with
    | none => exact Or.inr ⟨henomem, (Holds.acquire hargs).append (.release hargs)⟩
    | some startAddr =>
      -- the buffer has a size, so that there is a first queue
      have hcnt : info.ummuCnt.toNat ≠ 0 := by
        intro hzero
        apply h0
        rw [← hsize, BitVec.eq_of_toNat_eq (y := 0#32) hzero]
        simp
      obtain ⟨n, hn⟩ := Nat.exists_eq_succ_of_ne_zero hcnt
      refine Or.inl ⟨rfl, ?_⟩
      simp only
      rw [queueHeld_cons (a := queueArgsAt env.getpagesize info (startAddr +
        queueBufSize env.getpagesize info * BitVec.ofNat 64 0)) (by
          rw [hn, List.range_succ_eq_map, List.map_cons])]
      have hbuf : .queueBuf startAddr size ∉ insert Resource.queueArgs H := by
        rintro (h | h)
        · cases h
        · exact hH _ h rfl
      have hset : H ∪ {.queueBuf (startAddr + queueBufSize env.getpagesize info *
          BitVec.ofNat 64 0) size, .queueArgs} =
          insert (.queueBuf startAddr size) (insert .queueArgs H) := by
        rw [show startAddr + queueBufSize env.getpagesize info * BitVec.ofNat 64 0 = startAddr by
          simp, Set.union_comm, Set.insert_union, Set.singleton_union]
      exact hset ▸ (Holds.acquire hargs).append (.acquire hbuf)

/-- `ummu_queue_destroy` gives the queues back. -/
lemma queueDestroy_holds (hH : Clear .queue H) :
    Holds (H ∪ queueHeld k q) (ummuQueueDestroy k q) H := by
  unfold ummuQueueDestroy
  cases k with
  | true =>
    rw [if_pos rfl, queueHeld_kcmd, Set.union_empty]
    exact .nil
  | false =>
    rw [if_neg Bool.false_ne_true]
    cases hq : q.queue with
    | nil =>
      have hempty : queueHeld false q = ∅ := by
        ext r
        simp [queueHeld, hq]
      rw [hempty, Set.union_empty]
      exact .nil
    | cons a rest =>
      rw [queueHeld_cons hq, Set.union_comm, Set.insert_union, Set.singleton_union]
      have hargs : .queueArgs ∉ H := hH.not_mem rfl
      have hbuf : .queueBuf a.cmdEntry q.queueSize ∉ insert Resource.queueArgs H := by
        rintro (h | h)
        · cases h
        · exact hH _ h rfl
      exact (Holds.release hbuf).append (.release hargs)

end Queue

section Base

variable {y : Prop} {H : Set Resource} {c : TableCtx} {t : Option RangeTable} {m m' : Machine}

/-- A failed first allocation leaves the table context and a code. -/
lemma firstAlloc_none (hbitmap : m.ctx.levelBlockBitmap = fun _ => 0)
    (harray : m.ctx.maptBlockArray = fun _ => none)
    (h : ummuAllocLevelBlock .root none m = (none, m')) : 0 < m'.errno ∧ m'.ctx = m.ctx := by
  have hnew := newBlock_spec ∅ m.ctx.blkExpSize 0
    (m.store .root (fun n => { n with nextBlock := false }))
  unfold ummuAllocLevelBlock at h
  rw [hbitmap, findFirstZeroBit_zero, if_neg (by decide)] at h
  simp only [Machine.store, harray, Nat.zero_div] at h hnew
  rcases hnew with ⟨m₁, hrun, hctx, _, herrno, _⟩ | ⟨_, _, m₁, _, _, hrun, _⟩
  · rw [hrun] at h
    obtain rfl := congrArg Prod.snd h
    exact ⟨herrno, hctx⟩
  · rw [hrun] at h
    cases h

/-- The table of a new tid: level block 0 is the root and holds no valid node. -/
structure FreshTable (c : TableCtx) : Prop where
  root : ∀ l, testBit c.levelBlockBitmap l = true ↔ l = 0
  mapped : ∀ k, (c.maptBlockArray k).isSome = true ↔ k = 0
  empty : ∀ l i, (c.levelNode l i).valid = false

/-- A new tid has no segment. -/
def BlockBase.Fresh : BlockBase → Prop
  | .entryBlock node => node.valid = false ∧ node.nonce = 0
  | .tableCtx c t => t = some [] ∧ FreshTable c

lemma entryInit_holds (env : CreateEnv) (hH : Clear .base H) :
    (∃ base, (entryInit env).1 = 0 ∧ (entryInit env).2.1 = some base ∧
      Holds H (entryInit env).2.2 (H ∪ base.held) ∧ base.Ids ∧ base.Fresh) ∨
    ((entryInit env).1 ≠ 0 ∧ Holds H (entryInit env).2.2 H) := by
  have henomem : (-enomem : Int) ≠ 0 := by decide
  unfold entryInit
  cases env.entryBlock with
  | none => exact Or.inr ⟨henomem, .nil⟩
  | some n =>
    refine Or.inl ⟨_, rfl, rfl, ?_, trivial, rfl, rfl⟩
    rw [BlockBase.held, Set.union_singleton]
    exact .acquire (hH.not_mem rfl)

lemma tableCtxInit_holds {info : TidInfo} {env : CreateEnv} (hmaps : FreshMaps y env.maps)
    (hH : Clear .base H) :
    (∃ base, (tableCtxInit info env).1 = 0 ∧ (tableCtxInit info env).2.1 = some base ∧
      Holds H (tableCtxInit info env).2.2 (H ∪ base.held) ∧ base.Ids ∧ base.Fresh) ∨
    ((tableCtxInit info env).1 ≠ 0 ∧ Holds H (tableCtxInit info env).2.2 H) := by
  have henomem : (-enomem : Int) ≠ 0 := by decide
  have hctx : .tableCtx ∉ H := hH.not_mem rfl
  have hseg : .segMng ∉ insert Resource.tableCtx H := by
    rintro (h | h)
    · cases h
    · exact hH _ h rfl
  have hboth := (Holds.acquire hctx).append (.acquire hseg)
  unfold tableCtxInit
  by_cases halloc : env.tableCtxAlloc = false
  · rw [if_pos halloc]
    exact Or.inr ⟨henomem, .nil⟩
  rw [if_neg halloc]
  by_cases hmng : env.segMngCreate = false
  · rw [if_pos hmng]
    exact Or.inr ⟨henomem, (Holds.acquire hctx).append (.release hctx)⟩
  rw [if_neg hmng]
  simp only
  -- the first allocation starts with no block and an empty trace
  have hbooked : ∀ m : Machine, (∀ k, m.ctx.maptBlockArray k = none) → m.trace = [] →
      ∀ H, NoBlocks H → Booked H m (ummuAllocLevelBlock .root none m).2 := by
    intro m hnone _ H hH
    refine (Booked.refl ?_).alloc hH .root none
    intro k b hb
    rw [hnone k] at hb
    cases hb
  have hnoBlocks : NoBlocks (insert .segMng (insert .tableCtx H)) := by
    refine fun k size => ⟨?_, ?_⟩
    · rintro (h | h | h)
      · cases h
      · cases h
      · exact hH _ h rfl
    · rintro (h | h | h)
      · cases h
      · cases h
      · exact hH _ h rfl
  have hbooked := hbooked ⟨⟨info.hwCap.getLsbD 0, 0, info.blkExpSize, fun _ => 0, fun _ => none⟩,
    env.preNode, 0, 0, env.maps, []⟩ (fun _ => rfl) rfl _ hnoBlocks
  generalize hrun : ummuAllocLevelBlock .root none _ = r at hbooked ⊢
  obtain ⟨o, m⟩ := r
  obtain ⟨es, htrace, hledger⟩ := hbooked.ledger
  have hnil : blocksHeld (fun _ => none) info.blkExpSize = ∅ := by
    ext r
    simp [blocksHeld]
  rw [List.nil_append] at htrace
  simp only [hnil, Set.union_empty, ← htrace] at hledger
  have hall := hboth.append hledger
  cases o with
  | none =>
    obtain ⟨herrno, hctx'⟩ := firstAlloc_none rfl rfl hrun
    refine Or.inr ⟨by simp only; omega, ?_⟩
    simp only [hctx', hnil, Set.union_empty] at hall
    exact hall.append ((Holds.release hseg).append (.release hctx))
  | some r =>
    obtain ⟨mem, hmem, hm⟩ := firstAlloc rfl rfl rfl hrun
    have hfresh := hmaps mem hmem
    refine Or.inl ⟨_, rfl, rfl, ?_, hbooked.ids, rfl, ?_⟩
    · have hset : H ∪ BlockBase.held (.tableCtx m.ctx (some [])) =
          insert .segMng (insert .tableCtx H) ∪
            blocksHeld m.ctx.maptBlockArray info.blkExpSize := by
        rw [BlockBase.held, hbooked.size]
        ext r
        simp only [Set.mem_union, Set.mem_insert_iff, Set.mem_ofPred_eq, Option.isSome_some,
          true_and]
        tauto
      rw [hset]
      exact hall
    · simp only [hm]
      exact ⟨firstCtx_bit, firstCtx_isSome, firstCtx_invalid hfresh⟩

lemma modeInit_holds {info : TidInfo} {env : CreateEnv} (hmaps : FreshMaps y env.maps)
    (hH : Clear .base H) :
    (∃ base, (modeInit info env).1 = 0 ∧ (modeInit info env).2.1 = some base ∧
      Holds H (modeInit info env).2.2 (H ∪ base.held) ∧ base.Ids ∧ base.Fresh) ∨
    ((modeInit info env).1 ≠ 0 ∧ Holds H (modeInit info env).2.2 H) := by
  unfold modeInit
  cases info.mode with
  | entry => exact entryInit_holds env hH
  | table => exact tableCtxInit_holds hmaps hH

end Base

section Uninit

variable {H : Set Resource} {c : TableCtx} {t : Option RangeTable} {size k : Nat}

/-- The blocks that `ummu_mapt_table_ctx_uninit` does not come to: those whose first level block is
not in use. -/
def TableCtx.missed (c : TableCtx) (k : Nat) : Option MaptBlock :=
  if testBit c.levelBlockBitmap (4 * k) = true then none else c.maptBlockArray k

/-- What the teardown leaves. -/
def BlockBase.leaked : BlockBase → Set Resource
  | .entryBlock _ => ∅
  | .tableCtx c _ => blocksHeld c.missed c.blkExpSize

/-- The loop unmaps the blocks of the level blocks that are the first of theirs. -/
lemma uninitLoop_holds (hH : NoBlocks H) (visited : List Nat) (a : Nat → Option MaptBlock)
    (es : List ResourceEvent) (hids : BlockIds a) :
    ∃ es', (visited.foldl (uninitRound size) (a, es)).2 = es ++ es' ∧
      Holds (H ∪ blocksHeld a size) es'
        (H ∪ blocksHeld (visited.foldl (uninitRound size) (a, es)).1 size) ∧
      ∀ k, (visited.foldl (uninitRound size) (a, es)).1 k = if 4 * k ∈ visited then none else a k := by
  induction visited generalizing a es with
  | nil => exact ⟨[], (List.append_nil _).symm, .nil, fun k => (if_neg List.not_mem_nil).symm⟩
  | cons idx visited ih =>
    rw [List.foldl_cons]
    by_cases hidx : idx % perMaptLevelBlockCnt ≠ 0
    · have hround : uninitRound size (a, es) idx = (a, es) := by
        rw [uninitRound, if_pos hidx]
      obtain ⟨es', h1, h2, h3⟩ := ih a es hids
      rw [hround]
      refine ⟨es', h1, h2, fun k => ?_⟩
      have hne : 4 * k ≠ idx := by
        simp only [perMaptLevelBlockCnt] at hidx
        omega
      simp only [h3 k, List.mem_cons, hne, false_or]
    · rw [not_not] at hidx
      have hk : 4 * (idx / perMaptLevelBlockCnt) = idx := by
        simp only [perMaptLevelBlockCnt] at hidx ⊢
        omega
      generalize hq : idx / perMaptLevelBlockCnt = q at hk
      have hupdate : BlockIds (Function.update a q none) := by
        intro k b hb
        by_cases hkq : k = q
        · rw [hkq, Function.update_self] at hb
          cases hb
        · rw [Function.update_of_ne hkq] at hb
          exact hids k b hb
      have hset : ∀ k, (if 4 * k ∈ visited then none else Function.update a q none k) =
          if 4 * k ∈ idx :: visited then none else a k := by
        intro k
        by_cases hkq : k = q
        · rw [hkq, hk, Function.update_self, if_pos List.mem_cons_self]
          exact ite_self none
        · have hne : 4 * k ≠ idx := by omega
          simp only [Function.update_of_ne hkq, List.mem_cons, hne, false_or]
      rw [uninitRound, if_neg (not_not.mpr hidx)]
      simp only [hq]
      cases hb : a q with
      | none =>
        obtain ⟨es', h1, h2, h3⟩ := ih (Function.update a q none) es hupdate
        have hself : Function.update a q none = a := by
          rw [← hb, Function.update_eq_self]
        refine ⟨es', h1, ?_, fun k => (h3 k).trans (hset k)⟩
        rwa [hself] at h2 ⊢
      | some block =>
        obtain ⟨es', h1, h2, h3⟩ := ih (Function.update a q none) (es ++
          [.release (.tableBuf block.blockId size), .release (.maptBlock block.blockId)]) hupdate
        refine ⟨_ ++ es', h1.trans (List.append_assoc _ _ _), ?_, fun k => (h3 k).trans (hset k)⟩
        have hsome : (a q).isSome = true := by
          rw [hb]
          rfl
        have hunmap := @ledger_unmap a H size q hH hsome
        rw [(hids q block hb).1]
        exact hunmap.append h2

/-- `ummu_mapt_table_ctx_uninit` gives back all but the blocks that it misses. -/
lemma tableCtxUninit_holds (hH : Clear .base H) (hids : BlockIds c.maptBlockArray) :
    Holds (H ∪ BlockBase.held (.tableCtx c t)) (ummuMaptTableCtxUninit c t)
      (H ∪ BlockBase.leaked (.tableCtx c t)) := by
  obtain ⟨visited, hvisited, hmem, _⟩ :=
    (searchesSee_bitsOf c.levelBlockBitmap maxLevelIdSize).visits maxLevelIdSize (le_refl _)
  have hclear : NoBlocks (insert .tableCtx H) := by
    refine fun k size => ⟨?_, ?_⟩
    · rintro (h | h)
      · cases h
      · exact hH _ h rfl
    · rintro (h | h)
      · cases h
      · exact hH _ h rfl
  have hblocks : ∀ r : Resource, r = .tableCtx ∨ r = .segMng → ∀ a size, r ∉ blocksHeld a size := by
    rintro r (rfl | rfl) a size ⟨_, _, h | h⟩ <;> cases h
  obtain ⟨es, hes, hloop, hleft⟩ := @uninitLoop_holds _ c.blkExpSize hclear visited
    c.maptBlockArray [] hids
  -- the blocks that are left are those whose first level block is free
  have hmissed : blocksHeld (visited.foldl (uninitRound c.blkExpSize) (c.maptBlockArray, [])).1
      c.blkExpSize = blocksHeld c.missed c.blkExpSize := by
    apply blocksHeld_congr
    intro k
    rw [hleft k, TableCtx.missed]
    cases hb : c.maptBlockArray k with
    | none => rw [ite_self, ite_self]
    | some b =>
      have hlt : 4 * k < maxLevelIdSize := by
        have hk := (hids k b hb).2
        simp only [maxLevelIdSize, indexMaxSize, perMaptLevelBlockCnt] at hk ⊢
        omega
      have hiff : 4 * k ∈ visited ↔ testBit c.levelBlockBitmap (4 * k) = true := by
        rw [hmem]
        exact and_iff_right hlt
      simp only [hiff]
  have hend : Holds (insert .tableCtx H ∪ blocksHeld c.missed c.blkExpSize) [.release .tableCtx]
      (H ∪ blocksHeld c.missed c.blkExpSize) := by
    rw [Set.insert_union]
    apply Holds.release
    rintro (h | h)
    · exact hH _ h rfl
    · exact hblocks _ (Or.inl rfl) _ _ h
  rw [hmissed] at hloop
  rw [List.nil_append] at hes
  have hrest := hloop.append hend
  simp only [ummuMaptTableCtxUninit, hvisited, Option.getD_some, hes, BlockBase.leaked]
  cases t with
  | none =>
    have hset : H ∪ BlockBase.held (.tableCtx c none) =
        insert .tableCtx H ∪ blocksHeld c.maptBlockArray c.blkExpSize := by
      ext r
      simp only [BlockBase.held, Option.isSome_none, Bool.false_eq_true, false_and, or_false,
        Set.mem_union, Set.mem_ofPred_eq, Set.mem_insert_iff]
      tauto
    rw [hset, Option.isSome_none, if_neg Bool.false_ne_true, List.nil_append]
    exact hrest
  | some t =>
    have hset : H ∪ BlockBase.held (.tableCtx c (some t)) =
        insert .segMng (insert .tableCtx H ∪ blocksHeld c.maptBlockArray c.blkExpSize) := by
      ext r
      simp only [BlockBase.held, Option.isSome_some, true_and, Set.mem_union, Set.mem_ofPred_eq,
        Set.mem_insert_iff]
      tauto
    have hseg : .segMng ∉ insert .tableCtx H ∪ blocksHeld c.maptBlockArray c.blkExpSize := by
      rintro ((h | h) | h)
      · cases h
      · exact hH _ h rfl
      · exact hblocks _ (Or.inr rfl) _ _ h
    rw [hset, Option.isSome_some, if_pos rfl, List.append_assoc]
    exact (Holds.release hseg).append hrest

lemma leaked_clear {b : BlockBase} {s : Stage} (hs : s ≠ .base) : Clear s b.leaked := by
  intro r hr h
  apply hs
  rw [← h]
  cases b with
  | entryBlock node => exact hr.elim
  | tableCtx c t =>
    obtain ⟨k, _, rfl | rfl⟩ := hr
    · rfl
    · rfl

lemma modeUninit_holds {b : BlockBase} (hH : Clear .base H) (hids : b.Ids) :
    Holds (H ∪ b.held) (modeUninit b) (H ∪ b.leaked) := by
  cases b with
  | entryBlock node =>
    rw [BlockBase.held, BlockBase.leaked, Set.union_empty, Set.union_singleton]
    exact .release (hH.not_mem rfl)
  | tableCtx c t => exact tableCtxUninit_holds hH hids

/-- `ummu_mapt_destroy` gives back all but the blocks that the teardown of the table misses. -/
theorem maptDestroy_holds {obj : MaptObj} (hinfo : Clear .info H) (hqueue : Clear .queue H)
    (hbase : Clear .base H) (hids : obj.info.blockBase.Ids) :
    Holds (H ∪ obj.held) (ummuMaptDestroy obj) (H ∪ obj.info.blockBase.leaked) := by
  have hinfoBase : Stage.info ≠ .base := by decide
  have hqueueBase : Stage.queue ≠ .base := by decide
  have hbaseQueue : Stage.base ≠ .queue := by decide
  have huninit := @modeUninit_holds (H ∪ insert .maptInfo
    (queueHeld obj.info.kcmdPlbi obj.queueCtx)) obj.info.blockBase
    (hbase.union ((queueHeld_clear hbaseQueue).insert (by decide))) hids
  have hdestroy := @queueDestroy_holds (insert .maptInfo (H ∪ obj.info.blockBase.leaked))
    obj.info.kcmdPlbi obj.queueCtx
    ((hqueue.union (leaked_clear hqueueBase)).insert (by decide))
  have hfree := Holds.release ((hinfo.union (@leaked_clear obj.info.blockBase _ hinfoBase)).not_mem
    (rfl : Resource.maptInfo.stage = .info))
  have hmid : H ∪ insert .maptInfo (queueHeld obj.info.kcmdPlbi obj.queueCtx) ∪
      obj.info.blockBase.leaked = insert .maptInfo (H ∪ obj.info.blockBase.leaked) ∪
        queueHeld obj.info.kcmdPlbi obj.queueCtx := by
    ext r
    simp only [Set.mem_union, Set.mem_insert_iff]
    tauto
  rw [MaptObj.held, ← Set.union_assoc]
  rw [hmid] at huninit
  exact (huninit.append hdestroy).append hfree

end Uninit

section Create

variable {y : Prop} {H : Set Resource} {mode : MaptMode} {info : DriverInfo} {env : CreateEnv}
  {queueEnv : QueueEnv}

/-- `ummu_mapt_create` keeps what the tid holds, or gives everything back. -/
theorem createObj_holds (hmaps : FreshMaps y env.maps) (hinfo : Clear .info H)
    (hqueue : Clear .queue H) (hbase : Clear .base H) :
    (∃ obj, (createObj mode info env queueEnv).1 = some obj ∧
      Holds H (createObj mode info env queueEnv).2 (H ∪ obj.held) ∧
      obj.info.blockBase.Ids ∧ obj.info.blockBase.Fresh ∧ obj.info.tid = info.tid ∧
      obj.info.valid = true) ∨
    ((createObj mode info env queueEnv).1 = none ∧
      Holds H (createObj mode info env queueEnv).2 H) := by
  unfold createObj
  by_cases halloc : env.maptInfoAlloc = false
  · rw [if_pos halloc]
    exact Or.inr ⟨rfl, .nil⟩
  rw [if_neg halloc]
  simp only
  have hbaseQueue : Stage.base ≠ .queue := by decide
  have htake := Holds.acquire (hinfo.not_mem (rfl : Resource.maptInfo.stage = .info))
  have hgive := Holds.release (hinfo.not_mem (rfl : Resource.maptInfo.stage = .info))
  have hqueue' : Clear .queue (insert .maptInfo H) := hqueue.insert (by decide)
  rcases @queueCreate_holds _ (info.hwCap.getLsbD 2) info.queue queueEnv hqueue' with
    ⟨hq, hholds⟩ | ⟨hq, hholds⟩
  · rw [if_neg (not_not.mpr hq)]
    have hbase' : Clear .base (insert .maptInfo H ∪ queueHeld (info.hwCap.getLsbD 2)
        (ummuQueueCreate (info.hwCap.getLsbD 2) info.queue queueEnv).2.1) :=
      (hbase.insert (by decide)).union (queueHeld_clear hbaseQueue)
    rcases @modeInit_holds _ _ (info.tidInfo mode) env hmaps hbase' with
      ⟨base, hret, hsome, hinit, hids, hfresh⟩ | ⟨hret, hinit⟩
    · rw [if_neg (not_not.mpr hret), hsome]
      refine Or.inl ⟨_, rfl, ?_, hids, hfresh, rfl, rfl⟩
      have hset : H ∪ MaptObj.held ⟨⟨info.tid, true, info.hwCap.getLsbD 1, info.hwCap.getLsbD 2,
          base⟩, (ummuQueueCreate (info.hwCap.getLsbD 2) info.queue queueEnv).2.1⟩ =
          insert .maptInfo H ∪ queueHeld (info.hwCap.getLsbD 2)
            (ummuQueueCreate (info.hwCap.getLsbD 2) info.queue queueEnv).2.1 ∪ base.held := by
        ext r
        simp only [MaptObj.held, Set.mem_union, Set.mem_insert_iff]
        tauto
      rw [hset]
      exact (htake.append hholds).append hinit
    · rw [if_pos hret]
      have hdestroy := @queueDestroy_holds _ (info.hwCap.getLsbD 2)
        (ummuQueueCreate (info.hwCap.getLsbD 2) info.queue queueEnv).2.1 hqueue'
      exact Or.inr ⟨rfl, (((htake.append hholds).append hinit).append hdestroy).append hgive⟩
  · rw [if_pos hq]
    exact Or.inr ⟨rfl, (htake.append hholds).append hgive⟩

/-- The result of an initialisation that returned zero. -/
def initBase (i : Int × Option BlockBase × List ResourceEvent) : Option BlockBase :=
  if i.1 ≠ 0 then none else i.2.1

lemma tableCtxInit_base {info : TidInfo} :
    initBase (tableCtxInit info env) = ummuMaptTableCtxInit info env := by
  have henomem : (-enomem : Int) ≠ 0 := by decide
  unfold tableCtxInit ummuMaptTableCtxInit
  by_cases halloc : env.tableCtxAlloc = false
  · rw [if_pos halloc, if_neg (by rw [halloc]; simp)]
    exact if_pos henomem
  by_cases hmng : env.segMngCreate = false
  · rw [if_neg halloc, if_pos hmng, if_neg (by rw [hmng]; simp)]
    exact if_pos henomem
  rw [if_neg halloc, if_neg hmng]
  rw [Bool.not_eq_false] at halloc hmng
  rw [if_pos ⟨halloc, hmng⟩]
  simp only
  generalize hrun : ummuAllocLevelBlock .root none _ = r
  obtain ⟨o, m⟩ := r
  cases o with
  | some r => exact if_neg (not_not.mpr rfl)
  | none =>
    have herrno := (firstAlloc_none rfl rfl hrun).1
    exact if_pos (by simp only; omega)

/-- The object is what `ummuMaptCreate` makes of the same resources. -/
theorem createObj_info : (createObj mode info env queueEnv).1.map MaptObj.info =
    ummuMaptCreate (info.tidInfo mode) { env with
      queueCreate := decide ((ummuQueueCreate (info.hwCap.getLsbD 2) info.queue queueEnv).1 = 0) } := by
  have hentry : ∀ e : CreateEnv, initBase (entryInit e) = ummuMaptEntryInit e := by
    intro e
    unfold entryInit ummuMaptEntryInit
    cases e.entryBlock with
    | none => exact if_pos (by decide : (-enomem : Int) ≠ 0)
    | some n => exact if_neg (not_not.mpr rfl)
  generalize hqueue : decide
    ((ummuQueueCreate (info.hwCap.getLsbD 2) info.queue queueEnv).1 = 0) = ok
  have hmode : env.maptInfoAlloc = true → ok = true →
      (initBase (modeInit (info.tidInfo mode) env)).map (fun base =>
        MaptInfo.mk info.tid true (info.hwCap.getLsbD 1) (info.hwCap.getLsbD 2) base) =
      ummuMaptCreate (info.tidInfo mode) { env with queueCreate := ok } := by
    intro halloc hok
    unfold ummuMaptCreate
    refine Eq.trans ?_ (if_pos ⟨halloc, hok⟩).symm
    cases mode with
    | entry => exact congrArg (Option.map _) (hentry env)
    | table => exact congrArg (Option.map _) tableCtxInit_base
  unfold createObj
  by_cases halloc : env.maptInfoAlloc = false
  · rw [if_pos halloc, ummuMaptCreate, if_neg (by rw [halloc]; simp)]
    rfl
  rw [if_neg halloc]
  rw [Bool.not_eq_false] at halloc
  by_cases hq : (ummuQueueCreate (info.hwCap.getLsbD 2) info.queue queueEnv).1 = 0
  · rw [decide_eq_true hq] at hqueue
    refine Eq.trans ?_ (hmode halloc hqueue.symm)
    simp only
    rw [if_neg (not_not.mpr hq), initBase]
    by_cases hret : (modeInit (info.tidInfo mode) env).1 ≠ 0
    · rw [if_pos hret, if_pos hret]
      rfl
    · rw [if_neg hret, if_neg hret, Option.map_map]
      rfl
  · rw [decide_eq_false hq] at hqueue
    have hnone : ummuMaptCreate (info.tidInfo mode) { env with queueCreate := ok } = none := by
      rw [ummuMaptCreate]
      exact if_neg (by rw [← hqueue]; simp)
    simp only
    rw [if_pos hq, hnone]
    rfl

end Create

section Allocate

variable {y : Prop} {ctx : UmmuCtx} {tidAttr tid : Option (BitVec 32)} {env : AllocateEnv}

/-- What a call of `ummu_allocate_tid` leaves: the context of the caller as it was, or one new tid.
-/
structure Allocation (ctx : Option UmmuCtx) (tid : Option (BitVec 32)) (r : AllocateResult) :
    Prop where
  failed : r.ret ≠ 0 → r.ctx = ctx ∧ r.tid = tid ∧ Holds ∅ r.events ∅
  done : r.ret = 0 → ∃ ctx₀ obj, ctx = some ctx₀ ∧ ctx₀.maptMap obj.info.tid = none ∧
    r.ctx = some { ctx₀ with
      maptMap := Function.update ctx₀.maptMap obj.info.tid (some obj) } ∧
    r.tid = some obj.info.tid ∧ ¬ctx₀.sharedFd < 0 ∧ obj.info.valid = true ∧
    obj.info.blockBase.Ids ∧ obj.info.blockBase.Fresh ∧
    Holds ∅ r.events (insert (.tid obj.info.tid) obj.held)

/-- The teardown of a new tid misses nothing. -/
lemma leaked_fresh {b : BlockBase} (h : b.Fresh) : b.leaked = ∅ := by
  cases b with
  | entryBlock node => rfl
  | tableCtx c t =>
    ext r
    simp only [BlockBase.leaked, blocksHeld, Set.mem_ofPred_eq, Set.mem_empty_iff_false, iff_false]
    rintro ⟨k, hk, _⟩
    have hmapped : k = 0 := by
      rw [TableCtx.missed] at hk
      by_cases hbit : testBit c.levelBlockBitmap (4 * k) = true
      · rw [if_pos hbit] at hk
        cases hk
      · rw [if_neg hbit] at hk
        exact (h.2.mapped k).mp hk
    have hbit : testBit c.levelBlockBitmap (4 * k) = true := (h.2.root _).mpr (by omega)
    rw [TableCtx.missed, if_pos hbit] at hk
    cases hk

/-- A call that is refused. -/
lemma Allocation.refused {ctx : Option UmmuCtx} {ret : Int} (hret : ret ≠ 0) :
    Allocation ctx tid ⟨ret, ctx, tid, []⟩ :=
  ⟨fun _ => ⟨rfl, rfl, .nil⟩, fun h => (hret h).elim⟩

/-- `ummu_allocate_tid`, whichever of its steps fail: a failed call leaves the tid map, the mutex and
the tid of the caller as they were and has given back all that it took; a successful one leaves one
new tid with an empty table or entry. -/
theorem allocateTid_clean {ctx : Option UmmuCtx} (hmaps : FreshMaps y env.create.maps)
    (hmutex : ∀ c, ctx = some c → c.ctxMutex = false) :
    Allocation ctx tid (ummuAllocateTid ctx tidAttr tid env) := by
  have heinval : (-einval : Int) ≠ 0 := by decide
  have henomem : (-enomem : Int) ≠ 0 := by decide
  unfold ummuAllocateTid
  cases hc : ctx with
  | none => exact .refused heinval
  | some c =>
    cases hmode : tidAttr.bind checkedMode with
    | none => exact .refused heinval
    | some mode =>
      cases htid : tid with
      | none => exact .refused heinval
      | some old =>
        have hunlocked : ({ c with ctxMutex := false } : UmmuCtx) = c := by
          rw [← hmutex c hc]
        simp only [hunlocked]
        by_cases hget : ummuGetTid c.sharedFd env.ioctl ≠ 0
        · rw [if_pos hget]
          exact .refused hget
        rw [if_neg hget]
        have hopen : ¬c.sharedFd < 0 := by
          have henoent : (-enoent : Int) ≠ 0 := by decide
          intro hfd
          rw [ummuGetTid, if_pos hfd] at hget
          exact hget henoent
        have hput : ummuPutTid c.sharedFd env.info.tid = [.release (.tid env.info.tid)] :=
          if_neg hopen
        have hmem : .tid env.info.tid ∉ (∅ : Set Resource) := Set.notMem_empty _
        have hclear : ∀ s, s ≠ .driver → Clear s (insert (.tid env.info.tid) ∅) :=
          fun s hs => Clear.empty.insert (fun h => hs h.symm)
        have htake := Holds.acquire hmem
        have hgive := Holds.release hmem
        rw [hput]
        have hcreate := @createObj_holds y _ mode env.info env.create env.queue hmaps
          (hclear .info (by decide)) (hclear .queue (by decide)) (hclear .base (by decide))
        generalize createObj mode env.info env.create env.queue = r at hcreate ⊢
        obtain ⟨o, es⟩ := r
        rcases hcreate with ⟨obj, rfl, hes, hids, hfresh, hobj, hvalid⟩ | ⟨rfl, hes⟩
        · simp only
          cases hmap : c.maptMap env.info.tid with
          | some other =>
            have hins : ummuMapInsert c.maptMap env.info.tid obj = (-1, c.maptMap) := by
              rw [ummuMapInsert, hmap]
            have hexists : ¬(-1 : Int) = 0 := by decide
            rw [hins, if_pos hexists]
            have hdestroy := maptDestroy_holds (hclear .info (by decide))
              (hclear .queue (by decide)) (hclear .base (by decide)) hids
            rw [leaked_fresh hfresh, Set.union_empty] at hdestroy
            have hall := ((htake.append hes).append hdestroy).append hgive
            exact ⟨fun _ => ⟨congrArg some hunlocked, rfl, hall⟩, fun h => (hexists h).elim⟩
          | none =>
            have hins : ummuMapInsert c.maptMap env.info.tid obj =
                (0, Function.update c.maptMap env.info.tid (some obj)) := by
              rw [ummuMapInsert, hmap]
            rw [hins, if_neg (not_not.mpr rfl)]
            refine ⟨fun h => (h rfl).elim, fun _ => ⟨c, obj, rfl, ?_, ?_, ?_, hopen, hvalid, hids, hfresh,
              ?_⟩⟩
            · rw [hobj, hmap]
            · rw [hobj, ← hmutex c hc]
            · rw [hobj]
            · rw [hobj, ← Set.singleton_union]
              have hall := htake.append hes
              rwa [insert_empty_eq] at hall
        · exact ⟨fun _ => ⟨rfl, rfl, (htake.append hes).append hgive⟩, fun h => (henomem h).elim⟩

/-- A driver that hands out tid 1 for tables with user queues. -/
def openDriver (maps : List MapOutcome) : AllocateEnv where
  ioctl := 0
  info := ⟨1, 1, blockSize2M, ⟨0, 0, 1⟩⟩
  create := ⟨true, true, none, true, true, .zero, maps⟩
  queue := ⟨0x1000, true, some 0x10000⟩

theorem allocateTid_clean_open : Allocation (some ⟨3, fun _ => none, false⟩) (some 7)
    (ummuAllocateTid (some ⟨3, fun _ => none, false⟩) (some 0) (some 7)
      (openDriver [.mapped (fun _ => .zero)])) := by
  refine @allocateTid_clean True _ _ _ _ (fun mem hmem o => ?_) (fun c hc => ?_)
  · obtain rfl : mem = fun _ => .zero := by simpa [openDriver] using hmem
    exact ⟨rfl, fun _ => rfl⟩
  · rw [← Option.some.inj hc]

end Allocate

end Ummu
