import Ummu.TableCall
import Ummu.Lib.Run

/-!
# The life of a tid

`ummu_mapt_create` sets a tid up, and the calls of the API follow each other on it. In table mode
every call either is refused, or does one of the operations on the table and the range table.
-/

namespace Ummu

open Lib Machine Cell

/-- The part of `struct ummu_tid_info` that `ummu_mapt_create` reads. -/
structure TidInfo where
  tid : BitVec 32
  mode : MaptMode
  hwCap : BitVec 64
  blkExpSize : Nat

/-- What the system gives to `ummu_mapt_create`: whether its allocations and the set-up of the
queues succeed, the entry block as mapped, the level block as mapped, and what the local `pre_node`
happens to hold. -/
structure CreateEnv where
  maptInfoAlloc : Bool
  queueCreate : Bool
  entryBlock : Option EntryNode
  tableCtxAlloc : Bool
  segMngCreate : Bool
  preNode : TableNode
  maps : List MapOutcome

/-- `ummu_mapt_entry_init`. -/
def ummuMaptEntryInit (env : CreateEnv) : Option BlockBase :=
  env.entryBlock.map (fun n => .entryBlock { n with valid := false, nonce := 0 })

/-- `ummu_mapt_table_ctx_init`. -/
def ummuMaptTableCtxInit (info : TidInfo) (env : CreateEnv) : Option BlockBase :=
  if env.tableCtxAlloc = true ∧ env.segMngCreate = true then
    let ctx : TableCtx := ⟨info.hwCap.getLsbD 0, 0, info.blkExpSize, fun _ => 0, fun _ => none⟩
    match ummuAllocLevelBlock .root none ⟨ctx, env.preNode, 0, 0, env.maps, []⟩ with
    | (some _, m) => some (.tableCtx m.ctx (some []))
    | (none, _) => none
  else none

/-- `ummu_mapt_create`. -/
def ummuMaptCreate (info : TidInfo) (env : CreateEnv) : Option MaptInfo :=
  if env.maptInfoAlloc = true ∧ env.queueCreate = true then
    (match info.mode with
      | .entry => ummuMaptEntryInit env
      | .table => ummuMaptTableCtxInit info env).map (fun base =>
      { tid := info.tid
        valid := true
        doublePlbi := info.hwCap.getLsbD 1
        kcmdPlbi := info.hwCap.getLsbD 2
        blockBase := base })
  else none

/-- A call of the API on a tid. -/
inductive ApiCall where
  | grant (a : GrantArgs) (env : GrantEnv)
  | ungrant (data size : BitVec 64)
  | ungrantByToken (data size : BitVec 64) (tokenVal : BitVec 32)

def ApiCall.run (info : MaptInfo) : ApiCall → CallResult
  | .grant a env => ummuGrant info a env
  | .ungrant data size => ummuUngrant info data size
  | .ungrantByToken data size tokenVal => ummuUngrantByToken info data size tokenVal

/-- Mapped blocks come without valid nodes, and under `y` without nonces. -/
def ApiCall.Fresh (y : Prop) : ApiCall → Prop
  | .grant _ env => FreshMaps y env.maps
  | .ungrant _ _ => True
  | .ungrantByToken _ _ _ => True

/-- The `calloc` of a segment record succeeds. -/
def ApiCall.RecordAlloc : ApiCall → Prop
  | .grant _ env => env.recordAlloc = true
  | .ungrant _ _ => True
  | .ungrantByToken _ _ _ => True

/-- A tid as `ummu_mapt_create` leaves it. -/
def TidStart (y : Prop) (info : MaptInfo) : Prop :=
  ∃ tidInfo env, FreshMaps y env.maps ∧ ummuMaptCreate tidInfo env = some info

/-- One call that `P` allows in the state it is made in. -/
def TidNext (y : Prop) (P : MaptInfo → ApiCall → Prop) (info info' : MaptInfo) : Prop :=
  ∃ call : ApiCall, call.Fresh y ∧ P info call ∧ info' = (call.run info).info

/-- The states of a tid after any calls that `P` allows. -/
def TidReach (y : Prop) (P : MaptInfo → ApiCall → Prop) : MaptInfo → Prop :=
  Reachable (TidStart y) (TidNext y P)

section Init

variable {y : Prop}

/-- The table context of a new tid: mapt block 0 with level block 0. -/
def firstCtx (expan : Bool) (size : Nat) (mem : Nat → TableNode) : TableCtx where
  expan := expan
  blockCnt := 1
  blkExpSize := size
  levelBlockBitmap := ummuSetBit 0 (fun _ => 0)
  maptBlockArray := Function.update (fun _ => none) 0 (some ⟨mem, size, 0, 1, fun _ => 0⟩)

lemma findFirstZeroBit_zero : findFirstZeroBit (fun _ => 0) maxLevelIdSize = 0 := by
  have h0 : ~~~(0 : BitVec 64) ≠ 0 := by decide
  have hffz : ffz 0 = 0 := by
    obtain ⟨_, _, h⟩ := ffz_spec h0
    by_contra hne
    have := h 0 (Nat.pos_of_ne_zero hne)
    simp at this
  rw [findFirstZeroBit, if_neg (by decide), show bitsToLongs maxLevelIdSize = 31 + 1 by decide,
    findFirstZeroBitFrom, if_pos h0, hffz]

/-- The first level block comes with the first mapt block. -/
lemma firstAlloc {m m' : Machine} {r : NodeRef} (hbitmap : m.ctx.levelBlockBitmap = fun _ => 0)
    (harray : m.ctx.maptBlockArray = fun _ => none) (hcnt : m.ctx.blockCnt = 0)
    (h : ummuAllocLevelBlock .root none m = (some r, m')) :
    ∃ mem, MapOutcome.mapped mem ∈ m.maps ∧
      m'.ctx = firstCtx m.ctx.expan m.ctx.blkExpSize mem := by
  have hnew := newBlock_spec ∅ m.ctx.blkExpSize 0
    (m.store .root (fun n => { n with nextBlock := false }))
  unfold ummuAllocLevelBlock at h
  rw [hbitmap, findFirstZeroBit_zero, if_neg (by decide)] at h
  simp only [Machine.store, harray, Nat.zero_div] at h hnew
  rcases hnew with ⟨_, hrun, _⟩ | ⟨mem, rest, m₁, hmaps, _, hrun, hctx₁, _⟩
  · rw [hrun] at h
    cases h
  · rw [hrun] at h
    refine ⟨mem, hmaps ▸ List.mem_cons_self .., ?_⟩
    have hctx := congrArg (fun q => q.2.ctx) h
    simp only at hctx
    rw [← hctx]
    simp only [linkLevelBlock, stores_root, Machine.modifyBlock, hctx₁,
      TableCtx.modifyBlock, TableCtx.map, firstCtx, hbitmap, harray, hcnt, Function.update_self,
      Function.update_idem, Option.map_some, inc16]
    rfl

/-- Mapped nodes are not valid, and under `y` they hold no nonce. -/
def FreshMem (y : Prop) (mem : Nat → TableNode) : Prop :=
  ∀ o, (mem o).valid = false ∧ (y → (mem o).nonce = 0)

section First

variable {expan : Bool} {size : Nat} {mem : Nat → TableNode}

lemma firstCtx_bit (l : Nat) :
    testBit (firstCtx expan size mem).levelBlockBitmap l = true ↔ l = 0 := by
  have h : testBit (fun _ => 0) l = false := by simp [testBit]
  rw [firstCtx, testBit_ummuSetBit, h]
  simp

lemma firstCtx_used : (firstCtx expan size mem).used = {0} := by
  ext l
  exact firstCtx_bit l

lemma firstCtx_array {k : Nat} {b : MaptBlock}
    (h : (firstCtx expan size mem).maptBlockArray k = some b) :
    k = 0 ∧ b = ⟨mem, size, 0, 1, fun _ => 0⟩ := by
  simp only [firstCtx] at h
  by_cases hk : k = 0
  · subst hk
    rw [Function.update_self] at h
    exact ⟨rfl, (Option.some.inj h).symm⟩
  · rw [Function.update_of_ne hk] at h
    cases h

lemma firstCtx_isSome (k : Nat) :
    ((firstCtx expan size mem).maptBlockArray k).isSome = true ↔ k = 0 := by
  constructor
  · intro h
    obtain ⟨b, hb⟩ := Option.isSome_iff_exists.mp h
    exact (firstCtx_array hb).1
  · rintro rfl
    simp [firstCtx]

lemma firstCtx_invalid (hmem : FreshMem y mem) (l i : Nat) :
    ((firstCtx expan size mem).levelNode l i).valid = false := by
  cases hb : (firstCtx expan size mem).maptBlockArray (l / 4) with
  | none =>
    rw [levelNode_of_none hb]
    rfl
  | some b =>
    rw [levelNode_of_block hb, (firstCtx_array hb).2]
    exact (hmem _).1

lemma firstCtx_inv (hmem : FreshMem y mem) : CtxInv y (firstCtx expan size mem) := by
  refine ⟨?_, ?_, ?_, ?_, ?_, ?_, ?_, ?_, ?_, ?_⟩
  · rw [firstCtx_used]
    rfl
  · rw [firstCtx_used]
    rintro l rfl
    omega
  · intro k
    rw [firstCtx_isSome, firstCtx_used]
    constructor
    · exact Or.inl
    · rintro (h | ⟨l, rfl, rfl⟩)
      · exact h
      · rfl
  · intro k b hb
    obtain ⟨rfl, rfl⟩ := firstCtx_array hb
    rfl
  · intro k b hb
    obtain ⟨rfl, rfl⟩ := firstCtx_array hb
    simp only [TableCtx.usedCount, firstCtx_bit]
    decide
  · intro l
    have hcount : (firstCtx expan size mem).validCount l = 0 := by
      rw [TableCtx.validCount, Finset.card_eq_zero, Finset.filter_eq_empty_iff]
      intro i _ h
      rw [firstCtx_invalid hmem] at h
      cases h
    rw [hcount]
    cases hb : (firstCtx expan size mem).maptBlockArray (l / 4) with
    | none => simp only [TableCtx.entryCount, hb]
    | some b => rw [entryCount_of_block hb, (firstCtx_array hb).2]
  · intro l _ i _
    exact firstCtx_invalid hmem l i
  · simp only [TableCtx.mappedCount, firstCtx_isSome]
    have hfilter : (Finset.range 512).filter (fun k => k = 0) = {0} := by
      ext k
      simp only [Finset.mem_filter, Finset.mem_range, Finset.mem_singleton]
      constructor
      · exact fun h => h.2
      · rintro rfl
        exact ⟨by omega, rfl⟩
    rw [hfilter]
    rfl
  · intro _ k hk
    exact (firstCtx_isSome k).mp hk
  · intro hy k b o hb _
    rw [(firstCtx_array hb).2]
    exact (hmem o).2 hy

/-- A new tid in table mode has an empty table. -/
lemma firstCtx_table (hmem : FreshMem y mem) :
    TableInv y (firstCtx expan size mem) [] (fun _ => empty) := by
  refine ⟨⟨firstCtx_inv hmem, fun i => firstCtx_invalid hmem 0 i, ⟨fun _ h => h, fun _ _ _ =>
    Set.disjoint_empty _, fun _ => trivial⟩, ?_⟩, ⟨List.Pairwise.nil, fun e he => by cases he⟩,
    fun i x _ => rfl⟩
  rw [foot_empty (fun _ => rfl), firstCtx_used]

end First

/-- What `ummu_mapt_create` leaves. -/
lemma tidStart_base {info : MaptInfo} (h : TidStart y info) :
    (∃ node : EntryNode, info.blockBase = .entryBlock node ∧ node.valid = false ∧
      node.nonce = 0) ∨
    ∃ c, info.blockBase = .tableCtx c (some []) ∧ TableInv y c [] (fun _ => empty) := by
  obtain ⟨tidInfo, env, hmaps, hcreate⟩ := h
  unfold ummuMaptCreate at hcreate
  by_cases halloc : env.maptInfoAlloc = true ∧ env.queueCreate = true
  · rw [if_pos halloc] at hcreate
    obtain ⟨base, hbase, rfl⟩ := Option.map_eq_some_iff.mp hcreate
    cases hmode : tidInfo.mode with
    | entry =>
      rw [hmode] at hbase
      obtain ⟨node, _, rfl⟩ := Option.map_eq_some_iff.mp hbase
      exact Or.inl ⟨_, rfl, rfl, rfl⟩
    | table =>
      rw [hmode] at hbase
      simp only [ummuMaptTableCtxInit] at hbase
      by_cases hctx : env.tableCtxAlloc = true ∧ env.segMngCreate = true
      · rw [if_pos hctx] at hbase
        generalize hr : ummuAllocLevelBlock .root none _ = r at hbase
        obtain ⟨o, m⟩ := r
        cases o with
        | none => cases hbase
        | some r =>
          obtain ⟨mem, hmem, hm⟩ := firstAlloc rfl rfl rfl hr
          obtain rfl := Option.some.inj hbase
          refine Or.inr ⟨m.ctx, rfl, ?_⟩
          rw [hm]
          exact firstCtx_table (hmaps mem hmem)
      · rw [if_neg hctx] at hbase
        cases hbase
  · rw [if_neg halloc] at hcreate
    cases hcreate

/-- A table that may grow, with invalidation by the kernel. -/
def tableTid : TidInfo := ⟨1, .table, 5, blockSize2M⟩

/-- Every allocation succeeds, and the nodes of the block that is mapped are all `n`. -/
def roomyEnv (n : TableNode) : CreateEnv :=
  ⟨true, true, none, true, true, .zero, [.mapped (fun _ => n)]⟩

lemma newTid_isSome (n : TableNode) : (ummuMaptCreate tableTid (roomyEnv n)).isSome = true := by
  have hsome : (ummuMaptTableCtxInit tableTid (roomyEnv n)).isSome = true := by
    unfold ummuMaptTableCtxInit ummuAllocLevelBlock
    rw [if_pos ⟨rfl, rfl⟩]
    simp only [findFirstZeroBit_zero]
    rfl
  unfold ummuMaptCreate
  rw [if_pos ⟨rfl, rfl⟩, Option.isSome_map]
  exact hsome

def newTid (n : TableNode) : MaptInfo := (ummuMaptCreate tableTid (roomyEnv n)).get (newTid_isSome n)

lemma newTid_start {n : TableNode} (hv : n.valid = false) (hn : y → n.nonce = 0) :
    TidStart y (newTid n) := by
  refine ⟨tableTid, roomyEnv n, fun mem hmem o => ?_, (Option.some_get _).symm⟩
  obtain rfl : mem = fun _ => n := by simpa [roomyEnv] using hmem
  exact ⟨hv, hn⟩

end Init

end Ummu
