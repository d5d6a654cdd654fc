import Ummu.Closed
import Ummu.Lib.Ledger

/-!
# The ledger of the mapt blocks

A mapt block is a descriptor and a mapped buffer. The table operations hold them exactly as long as
`mapt_block_array` has the block.
-/

namespace Ummu

open Lib Machine

def ResourceEvent.op : ResourceEvent → LedgerOp Resource
  | .acquire r => .take r
  | .release r => .give r

def Event.resource? : Event → Option ResourceEvent
  | .resource e => some e
  | _ => none

/-- The part of a trace that takes and gives back. -/
def resourceEvents (trace : List Event) : List ResourceEvent := trace.filterMap Event.resource?

/-- The events are in order, and take what is held from `H` to `H'`. -/
def Holds (H : Set Resource) (es : List ResourceEvent) (H' : Set Resource) : Prop :=
  Ledger H (es.map ResourceEvent.op) H'

/-- The descriptors and buffers of the blocks of `a`, whose buffers have the given size. -/
def blocksHeld (a : Nat → Option MaptBlock) (size : Nat) : Set Resource :=
  {r | ∃ k, (a k).isSome = true ∧ (r = .maptBlock k ∨ r = .tableBuf k size)}

/-- Each block carries its index, which is one of `mapt_block_array`. -/
def BlockIds (a : Nat → Option MaptBlock) : Prop :=
  ∀ k b, a k = some b → b.blockId = k ∧ k < indexMaxSize

section Held

variable {a : Nat → Option MaptBlock} {b : MaptBlock} {H : Set Resource} {size k : Nat}

lemma blocksHeld_congr {a' : Nat → Option MaptBlock}
    (h : ∀ k, (a' k).isSome = (a k).isSome) : blocksHeld a' size = blocksHeld a size := by
  ext r
  simp only [blocksHeld, Set.mem_ofPred_eq, h]

/-- Nothing of `H` is a block. -/
def NoBlocks (H : Set Resource) : Prop := ∀ k size, .maptBlock k ∉ H ∧ .tableBuf k size ∉ H

lemma maptBlock_mem (hH : NoBlocks H) :
    .maptBlock k ∈ H ∪ blocksHeld a size ↔ (a k).isSome = true := by
  constructor
  · rintro (h | ⟨k', hk', h | h⟩)
    · exact ((hH k 0).1 h).elim
    · rwa [Resource.maptBlock.inj h]
    · cases h
  · exact fun h => Or.inr ⟨k, h, Or.inl rfl⟩

lemma tableBuf_mem (hH : NoBlocks H) :
    .tableBuf k size ∈ H ∪ blocksHeld a size ↔ (a k).isSome = true := by
  constructor
  · rintro (h | ⟨k', hk', h | h⟩)
    · exact ((hH k size).2 h).elim
    · cases h
    · rwa [(Resource.tableBuf.inj h).1]
  · exact fun h => Or.inr ⟨k, h, Or.inr rfl⟩

/-- A block is mapped at a free index. -/
lemma ledger_map (hH : NoBlocks H) (hk : a k = none) :
    Holds (H ∪ blocksHeld a size) [.acquire (.maptBlock k), .acquire (.tableBuf k size)]
      (H ∪ blocksHeld (Function.update a k (some b)) size) := by
  have hno : ¬(a k).isSome = true := by rw [hk]; exact Bool.false_ne_true
  have hset : insert (.tableBuf k size) (insert (.maptBlock k) (H ∪ blocksHeld a size)) =
      H ∪ blocksHeld (Function.update a k (some b)) size := by
    ext r
    simp only [blocksHeld, Set.mem_insert_iff, Set.mem_union, Set.mem_ofPred_eq]
    constructor
    · rintro (rfl | rfl | h | ⟨k', hk', h⟩)
      · exact Or.inr ⟨k, by rw [Function.update_self]; rfl, Or.inr rfl⟩
      · exact Or.inr ⟨k, by rw [Function.update_self]; rfl, Or.inl rfl⟩
      · exact Or.inl h
      · refine Or.inr ⟨k', ?_, h⟩
        rwa [Function.update_of_ne]
        rintro rfl
        exact hno hk'
    · rintro (h | ⟨k', hk', h⟩)
      · exact Or.inr (Or.inr (Or.inl h))
      · by_cases hkk : k' = k
        · subst hkk
          rcases h with h | h
          · exact Or.inr (Or.inl h)
          · exact Or.inl h
        · rw [Function.update_of_ne hkk] at hk'
          exact Or.inr (Or.inr (Or.inr ⟨k', hk', h⟩))
  rw [← hset]
  refine .take ?_ (.take ?_ .nil)
  · rwa [maptBlock_mem hH]
  · rintro (h | h)
    · cases h
    · exact hno ((tableBuf_mem hH).mp h)

/-- A block is unmapped. -/
lemma ledger_unmap (hH : NoBlocks H) (hk : (a k).isSome = true) :
    Holds (H ∪ blocksHeld a size) [.release (.tableBuf k size), .release (.maptBlock k)]
      (H ∪ blocksHeld (Function.update a k none) size) := by
  have hset : ((H ∪ blocksHeld a size) \ {.tableBuf k size}) \ {.maptBlock k} =
      H ∪ blocksHeld (Function.update a k none) size := by
    ext r
    simp only [blocksHeld, Set.mem_sdiff, Set.mem_union, Set.mem_ofPred_eq,
      Set.mem_singleton_iff]
    constructor
    · rintro ⟨⟨h | ⟨k', hk', h⟩, h1⟩, h2⟩
      · exact Or.inl h
      · refine Or.inr ⟨k', ?_, h⟩
        rwa [Function.update_of_ne]
        rintro rfl
        exact h.elim h2 h1
    · rintro (h | ⟨k', hk', h⟩)
      · refine ⟨⟨Or.inl h, ?_⟩, ?_⟩
        · rintro rfl
          exact (hH k size).2 h
        · rintro rfl
          exact (hH k size).1 h
      · have hkk : k' ≠ k := by
          rintro rfl
          rw [Function.update_self] at hk'
          cases hk'
        rw [Function.update_of_ne hkk] at hk'
        refine ⟨⟨Or.inr ⟨k', hk', h⟩, ?_⟩, ?_⟩
        · rintro rfl
          rcases h with h | h
          · cases h
          · exact hkk (Resource.tableBuf.inj h).1.symm
        · rintro rfl
          rcases h with h | h
          · exact hkk (Resource.maptBlock.inj h).symm
          · cases h
  rw [← hset]
  refine .give ?_ (.give ?_ .nil)
  · rwa [tableBuf_mem hH]
  · exact ⟨(maptBlock_mem hH).mpr hk, fun h => by cases h⟩

/-- A descriptor that got no buffer is given back. -/
lemma ledger_mapFailed (hH : NoBlocks H) (hk : a k = none) :
    Holds (H ∪ blocksHeld a size) [.acquire (.maptBlock k), .release (.maptBlock k)]
      (H ∪ blocksHeld a size) := by
  have hnot : Resource.maptBlock k ∉ H ∪ blocksHeld a size := by
    rw [maptBlock_mem hH, hk]
    exact Bool.false_ne_true
  exact Ledger.bracket hnot .nil

end Held

/-- The blocks that a table context has, and what they are called. -/
def TableCtx.blockIds (c : TableCtx) (k : Nat) : Option Nat :=
  (c.maptBlockArray k).map MaptBlock.blockId

/-- From `m₀` to `m` the ledger of the blocks is in order; `H` is held throughout. -/
structure Booked (H : Set Resource) (m₀ m : Machine) : Prop where
  ids : BlockIds m.ctx.maptBlockArray
  size : m.ctx.blkExpSize = m₀.ctx.blkExpSize
  ledger : ∃ es, m.trace = m₀.trace ++ es ∧
    Holds (H ∪ blocksHeld m₀.ctx.maptBlockArray m₀.ctx.blkExpSize) (resourceEvents es)
      (H ∪ blocksHeld m.ctx.maptBlockArray m₀.ctx.blkExpSize)

section Booked

variable {H : Set Resource} {m₀ m n : Machine} {r : NodeRef} {k : Nat}

lemma isSome_of_blockIds {c c' : TableCtx} (h : c'.blockIds = c.blockIds) (k : Nat) :
    (c'.maptBlockArray k).isSome = (c.maptBlockArray k).isSome := by
  have hk := congrFun h k
  simp only [TableCtx.blockIds] at hk
  rw [← Option.isSome_map (f := MaptBlock.blockId), hk, Option.isSome_map]

lemma ids_of_blockIds {c c' : TableCtx} (h : c'.blockIds = c.blockIds)
    (hids : BlockIds c.maptBlockArray) : BlockIds c'.maptBlockArray := by
  intro k b' hb'
  have hk := congrFun h k
  simp only [TableCtx.blockIds, hb', Option.map_some] at hk
  obtain ⟨b, hb, hid⟩ := Option.map_eq_some_iff.mp hk.symm
  rw [← hid]
  exact hids k b hb

lemma blockIds_modifyBlock (c : TableCtx) (k : Nat) {f : MaptBlock → MaptBlock}
    (hf : ∀ b, (f b).blockId = b.blockId) : (c.modifyBlock k f).blockIds = c.blockIds := by
  funext k'
  simp only [TableCtx.blockIds, TableCtx.modifyBlock]
  by_cases hk : k' = k
  · subst hk
    rw [Function.update_self, Option.map_map]
    exact congrArg (fun g => Option.map g _) (funext hf)
  · rw [Function.update_of_ne hk]

lemma Booked.refl (hids : BlockIds m.ctx.maptBlockArray) : Booked H m m :=
  ⟨hids, rfl, [], (List.append_nil _).symm, .nil⟩

/-- A step whose events `es` take the ledger from the blocks of `m` to those of `m'`. -/
lemma Booked.step (h : Booked H m₀ m) (es : List Event) (htrace : n.trace = m.trace ++ es)
    (hids : BlockIds n.ctx.maptBlockArray) (hsize : n.ctx.blkExpSize = m.ctx.blkExpSize)
    (hledger : Holds (H ∪ blocksHeld m.ctx.maptBlockArray m.ctx.blkExpSize) (resourceEvents es)
      (H ∪ blocksHeld n.ctx.maptBlockArray m.ctx.blkExpSize)) : Booked H m₀ n := by
  obtain ⟨es₀, htrace₀, hledger₀⟩ := h.ledger
  refine ⟨hids, hsize.trans h.size, es₀ ++ es, ?_, ?_⟩
  · rw [htrace, htrace₀, List.append_assoc]
  · rw [h.size] at hledger
    rw [resourceEvents, List.filterMap_append, Holds, List.map_append]
    exact hledger₀.append hledger

/-- A step that keeps the blocks and takes nothing. -/
lemma Booked.quiet (h : Booked H m₀ m) {es : List Event} (htrace : n.trace = m.trace ++ es)
    (hes : resourceEvents es = []) (hids : n.ctx.blockIds = m.ctx.blockIds)
    (hsize : n.ctx.blkExpSize = m.ctx.blkExpSize) : Booked H m₀ n := by
  refine h.step es htrace (ids_of_blockIds hids h.ids) hsize ?_
  rw [hes, blocksHeld_congr (isSome_of_blockIds hids)]
  exact .nil

lemma Booked.store (h : Booked H m₀ m) (r : NodeRef) (f : TableNode → TableNode) :
    Booked H m₀ (m.store r f) := by
  cases r with
  | root =>
    have htrace : (m.store .root f).trace = m.trace ++ [] := (List.append_nil _).symm
    exact h.quiet htrace rfl rfl rfl
  | slot blk off =>
    have hids := blockIds_modifyBlock m.ctx blk
      (f := fun b => { b with blockAddr := Function.update b.blockAddr off (f (m.ctx.node blk off)) })
      (fun _ => rfl)
    exact h.quiet (n := m.store (.slot blk off) f) rfl rfl hids rfl

lemma Booked.stores (h : Booked H m₀ m) (r : NodeRef) (fs : List (TableNode → TableNode)) :
    Booked H m₀ (m.stores r fs) := by
  induction fs generalizing m with
  | nil => exact h
  | cons f fs ih => exact ih (h.store r f)

lemma Booked.log (h : Booked H m₀ m) {e : Event} (he : ∀ r, e ≠ .resource r) :
    Booked H m₀ (m.log e) := by
  refine h.quiet (n := m.log e) rfl ?_ rfl rfl
  cases e with
  | resource r => exact (he r rfl).elim
  | _ => rfl

lemma Booked.modifyBlock (h : Booked H m₀ m) (k : Nat) {f : MaptBlock → MaptBlock}
    (hf : ∀ b, (f b).blockId = b.blockId) : Booked H m₀ (m.modifyBlock k f) :=
  h.quiet (List.append_nil _).symm rfl (blockIds_modifyBlock m.ctx k hf) rfl

/-- A step that changes neither the blocks nor the trace. -/
lemma Booked.same (h : Booked H m₀ m) (htrace : n.trace = m.trace)
    (harray : n.ctx.maptBlockArray = m.ctx.maptBlockArray)
    (hsize : n.ctx.blkExpSize = m.ctx.blkExpSize) : Booked H m₀ n := by
  have hids : n.ctx.blockIds = m.ctx.blockIds := by
    funext k
    rw [TableCtx.blockIds, TableCtx.blockIds, harray]
  exact h.quiet (htrace.trans (List.append_nil _).symm) rfl hids hsize

/-- A mapped block is booked, and a failed mapping leaves nothing. -/
lemma Booked.newBlock (h : Booked H m₀ m) (hH : NoBlocks H) (hk : m.ctx.maptBlockArray k = none)
    (hlt : k < indexMaxSize) :
    Booked H m₀ (ummuAllocNewMaptBlock m.ctx.blkExpSize k m).2 := by
  have hfailed : ∀ m' : Machine,
      m'.trace = ((m.acquire (.maptBlock k)).release (.maptBlock k)).trace → m'.ctx = m.ctx →
      Booked H m₀ m' := by
    intro m' htrace hctx
    have hboth : m'.trace = m.trace ++
        [.resource (.acquire (.maptBlock k)), .resource (.release (.maptBlock k))] := by
      rw [htrace]
      simp only [acquire, release, Machine.log, List.append_assoc, List.singleton_append]
    refine h.step _ hboth (hctx ▸ h.ids) (hctx ▸ rfl) ?_
    rw [hctx]
    exact ledger_mapFailed hH hk
  unfold ummuAllocNewMaptBlock
  simp only
  by_cases hexp : m.ctx.expan ≠ true ∧ k ≠ 0
  · rw [if_pos hexp]
    exact h.same rfl rfl rfl
  rw [if_neg hexp]
  cases m.maps with
  | nil => exact h.same rfl rfl rfl
  | cons o rest =>
    cases o with
    | callocFailed => exact h.same rfl rfl rfl
    | mmapFailed => exact hfailed _ rfl rfl
    | mapped mem =>
      simp only
      by_cases hsize : tableBlockSizeOk m.ctx.blkExpSize = true
      · rw [if_pos hsize]
        refine h.step [.resource (.acquire (.maptBlock k)),
          .resource (.acquire (.tableBuf k m.ctx.blkExpSize))] ?_ ?_ rfl (ledger_map hH hk)
        · simp only [acquire, Machine.log, List.append_assoc, List.singleton_append]
        · intro k' b hb
          by_cases hkk : k' = k
          · subst hkk
            simp only [Function.update_self] at hb
            rw [← Option.some.inj hb]
            exact ⟨rfl, hlt⟩
          · simp only [Function.update_of_ne hkk] at hb
            exact h.ids k' b hb
      · rw [if_neg hsize]
        exact hfailed _ rfl rfl

lemma Booked.link (h : Booked H m₀ m) (r : NodeRef) (k l : Nat) :
    Booked H m₀ (linkLevelBlock r k l m).2 := by
  simp only [linkLevelBlock]
  refine Booked.modifyBlock (f := fun b => { b with levelCnt := inc16 b.levelCnt }) ?_ k
    (fun _ => rfl)
  exact Booked.same (h.stores r _) rfl rfl rfl

/-- Taking a level block books the mapt block that is mapped for it. -/
lemma Booked.alloc (h : Booked H m₀ m) (hH : NoBlocks H) (r : NodeRef) (blk : Option Nat) :
    Booked H m₀ (ummuAllocLevelBlock r blk m).2 := by
  unfold ummuAllocLevelBlock
  simp only
  generalize findFirstZeroBit m.ctx.levelBlockBitmap maxLevelIdSize = l
  by_cases hl : l ≥ maxLevelIdSize
  · rw [if_pos hl]
    exact (h.same (n := { m with errno := erange }) rfl rfl rfl).log
      (fun _ he => Event.noConfusion he)
  rw [if_neg hl]
  have hstore := h.store r (fun n => { n with nextBlock := false })
  generalize m.store r (fun n => { n with nextBlock := false }) = s at hstore ⊢
  cases hk : s.ctx.maptBlockArray (l / perMaptLevelBlockCnt) with
  | none =>
    have hlt : l / perMaptLevelBlockCnt < indexMaxSize := by
      have hsize : maxLevelIdSize = indexMaxSize * perMaptLevelBlockCnt := rfl
      exact Nat.div_lt_of_lt_mul (by rw [Nat.mul_comm, ← hsize]; omega)
    have hnew := hstore.newBlock hH hk hlt
    simp only
    generalize ummuAllocNewMaptBlock s.ctx.blkExpSize (l / perMaptLevelBlockCnt) s = q at hnew ⊢
    obtain ⟨ok, s'⟩ := q
    cases ok with
    | false => exact hnew
    | true => exact (hnew.store r _).link _ _ _
  | some b =>
    apply Booked.link
    split_ifs
    · exact hstore.store r _
    · exact hstore

/-- The mapt block is unmapped, or stays for its other level blocks. -/
lemma Booked.unmap (h : Booked H m₀ m) (hH : NoBlocks H) {b : MaptBlock}
    (hb : m.ctx.maptBlockArray k = some b) :
    Booked H m₀ (if b.levelCnt = 0 ∧ m.ctx.blockCnt > 1 then
      ({ m with ctx := { m.ctx with
          maptBlockArray := Function.update m.ctx.maptBlockArray k none
          blockCnt := dec16 m.ctx.blockCnt } }.release (.tableBuf k m.ctx.blkExpSize)).release
        (.maptBlock k) else m) := by
  by_cases hlast : b.levelCnt = 0 ∧ m.ctx.blockCnt > 1
  · rw [if_pos hlast]
    have hsome : (m.ctx.maptBlockArray k).isSome = true := by
      rw [hb]
      rfl
    refine h.step [.resource (.release (.tableBuf k m.ctx.blkExpSize)),
      .resource (.release (.maptBlock k))] ?_ ?_ rfl (ledger_unmap hH hsome)
    · simp only [release, Machine.log, List.append_assoc, List.singleton_append]
    · intro k' b' hk'
      by_cases hkk : k' = k
      · simp only [release, Machine.log, hkk, Function.update_self] at hk'
        cases hk'
      · simp only [release, Machine.log, Function.update_of_ne hkk] at hk'
        exact h.ids k' b' hk'
  · rwa [if_neg hlast]

/-- Giving a level block back books the mapt block that is unmapped with it. -/
lemma Booked.free (h : Booked H m₀ m) (hH : NoBlocks H) (r : NodeRef) :
    Booked H m₀ (ummuFreeLevelBlock r m) := by
  simp only [ummuFreeLevelBlock]
  cases hb : m.ctx.maptBlockArray (m.node r).nextLvIndex.toNat with
  | none => exact h
  | some block =>
    have hid := (h.ids _ _ hb).1
    simp only [hid]
    by_cases hl : (m.node r).nextLvIndex.toNat * perMaptLevelBlockCnt +
        (m.node r).lvOffset / maxMaptEntryIndex ≠ 0
    · have hcount := h.modifyBlock (m.node r).nextLvIndex.toNat
        (f := fun b => { b with levelCnt := dec16 b.levelCnt }) (fun _ => rfl)
      have hfree := Booked.unmap (k := (m.node r).nextLvIndex.toNat)
        (b := { block with levelCnt := dec16 block.levelCnt })
        (m := { m.modifyBlock (m.node r).nextLvIndex.toNat
            (fun b => { b with levelCnt := dec16 b.levelCnt }) with
          ctx := { (m.modifyBlock (m.node r).nextLvIndex.toNat
              (fun b => { b with levelCnt := dec16 b.levelCnt })).ctx with
            levelBlockBitmap := ummuClearBit ((m.node r).nextLvIndex.toNat *
              perMaptLevelBlockCnt + (m.node r).lvOffset / maxMaptEntryIndex)
              m.ctx.levelBlockBitmap } })
        (hcount.same rfl rfl rfl) hH (by
          simp only [Machine.modifyBlock, TableCtx.modifyBlock, Function.update_self, hb,
            Option.map_some])
      simp only [if_pos hl, Machine.modifyBlock, TableCtx.modifyBlock, Function.update_self, hb,
        Option.map_some] at hfree ⊢
      exact hfree
    · simp only [if_neg hl, hb]
      exact h.unmap hH hb

/-- Every table operation keeps the ledger of the blocks in order. -/
theorem booked_closed (hH : NoBlocks H) (m₀ : Machine) : Closed (Booked H m₀) where
  store _ r f h := h.store r f
  log _ _ he h := h.log he
  count _ blk _ _ h := h.modifyBlock blk (fun _ => rfl)
  lvl _ _ h := h.same rfl rfl rfl
  root _ _ h := h.same rfl rfl rfl
  alloc _ r blk h := h.alloc hH r blk
  free _ r h := h.free hH r

end Booked

end Ummu
