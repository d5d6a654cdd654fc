import Ummu.Refinement
import Ummu.Teardown

/-!
# Table accesses stay in the mapped block

The driver reports one size for all mapt blocks of a tid, and the table functions never change it.
With room for four level blocks, every node that they address lies in the block it is taken from.
-/

namespace Ummu

open Lib Machine

/-- `sizeof(struct ummu_mapt_table_node)`. -/
def tableNodeSize : Nat := 32

/-- Whether the table may grow, and the size of all its blocks, those addressed so far included. -/
structure Sized (expan : Bool) (size : Nat) (m : Machine) : Prop where
  expan : m.ctx.expan = expan
  blkExpSize : m.ctx.blkExpSize = size
  blocks : ∀ k b, m.ctx.maptBlockArray k = some b → b.blkSize = size
  trace : ∀ pos blkSize, Event.access pos blkSize ∈ m.trace → blkSize = size

section Sized

variable {e : Bool} {s : Nat} {m n : Machine} {r : NodeRef}

/-- A step that addresses no node and takes no block. -/
lemma Sized.step (h : Sized e s m) {es : List Event} (htrace : n.trace = m.trace ++ es)
    (hes : ∀ pos size, Event.access pos size ∉ es) (hexpan : n.ctx.expan = m.ctx.expan)
    (hsize : n.ctx.blkExpSize = m.ctx.blkExpSize)
    (hblocks : ∀ k b, n.ctx.maptBlockArray k = some b →
      b.blkSize = s ∨ ∃ b', m.ctx.maptBlockArray k = some b' ∧ b.blkSize = b'.blkSize) :
    Sized e s n := by
  refine ⟨hexpan.trans h.expan, hsize.trans h.blkExpSize, fun k b hb => ?_, fun pos size hev => ?_⟩
  · rcases hblocks k b hb with hs | ⟨b', hb', hs⟩
    · exact hs
    · exact hs.trans (h.blocks k b' hb')
  · rw [htrace] at hev
    exact h.trace pos size ((List.mem_append.mp hev).resolve_right (hes pos size))

lemma Sized.same (h : Sized e s m) {es : List Event} (htrace : n.trace = m.trace ++ es)
    (hes : ∀ pos size, Event.access pos size ∉ es) (hexpan : n.ctx.expan = m.ctx.expan)
    (hsize : n.ctx.blkExpSize = m.ctx.blkExpSize)
    (harray : n.ctx.maptBlockArray = m.ctx.maptBlockArray) : Sized e s n :=
  h.step htrace hes hexpan hsize fun _ b hb => Or.inr ⟨b, harray ▸ hb, rfl⟩

lemma modifyBlock_size {c : TableCtx} {k k' : Nat} {f : MaptBlock → MaptBlock} {b : MaptBlock}
    (hf : ∀ b, (f b).blkSize = b.blkSize) (hb : (c.modifyBlock k f).maptBlockArray k' = some b) :
    ∃ b', c.maptBlockArray k' = some b' ∧ b.blkSize = b'.blkSize := by
  simp only [TableCtx.modifyBlock] at hb
  by_cases hk : k' = k
  · subst hk
    rw [Function.update_self] at hb
    obtain ⟨b', hb', rfl⟩ := Option.map_eq_some_iff.mp hb
    exact ⟨b', hb', hf b'⟩
  · rw [Function.update_of_ne hk] at hb
    exact ⟨b, hb, rfl⟩

lemma Sized.modifyBlock (h : Sized e s m) (k : Nat) {f : MaptBlock → MaptBlock}
    (hf : ∀ b, (f b).blkSize = b.blkSize) : Sized e s (m.modifyBlock k f) :=
  h.step (List.append_nil _).symm (fun _ _ => List.not_mem_nil) rfl rfl
    fun _ _ hb => Or.inr (modifyBlock_size hf hb)

lemma Sized.log (h : Sized e s m) {ev : Event} (hev : ∀ pos size, ev ≠ .access pos size) :
    Sized e s (m.log ev) :=
  h.same rfl (fun pos size hmem => hev pos size (List.mem_singleton.mp hmem).symm) rfl rfl rfl

lemma Sized.store (h : Sized e s m) (r : NodeRef) (f : TableNode → TableNode) :
    Sized e s (m.store r f) := by
  cases r with
  | root =>
    exact ⟨h.expan, h.blkExpSize, h.blocks, h.trace⟩
  | slot blk off =>
    have hset := h.modifyBlock blk (f := fun b =>
      { b with blockAddr := Function.update b.blockAddr off (f (m.ctx.node blk off)) }) (fun _ => rfl)
    exact hset.log (fun _ _ he => Event.noConfusion he)

lemma Sized.stores (h : Sized e s m) (r : NodeRef) (fs : List (TableNode → TableNode)) :
    Sized e s (m.stores r fs) := by
  induction fs generalizing m with
  | nil => exact h
  | cons f fs ih => exact ih (h.store r f)

/-- A new mapt block has the size that the driver reported. -/
lemma Sized.newBlock (h : Sized e s m) (k : Nat) :
    Sized e s (ummuAllocNewMaptBlock m.ctx.blkExpSize k m).2 := by
  have hboth : Sized e s ((m.acquire (.maptBlock k)).release (.maptBlock k)) :=
    (h.log (fun _ _ he => Event.noConfusion he)).log (fun _ _ he => Event.noConfusion he)
  unfold ummuAllocNewMaptBlock
  simp only
  by_cases hexp : m.ctx.expan ≠ true ∧ k ≠ 0
  · rw [if_pos hexp]
    exact ⟨h.expan, h.blkExpSize, h.blocks, h.trace⟩
  rw [if_neg hexp]
  cases m.maps with
  | nil => exact ⟨h.expan, h.blkExpSize, h.blocks, h.trace⟩
  | cons o rest =>
    cases o with
    | callocFailed => exact ⟨h.expan, h.blkExpSize, h.blocks, h.trace⟩
    | mmapFailed => exact ⟨hboth.expan, hboth.blkExpSize, hboth.blocks, hboth.trace⟩
    | mapped mem =>
      simp only
      by_cases hsize : tableBlockSizeOk m.ctx.blkExpSize = true
      · rw [if_pos hsize]
        have htwo : Sized e s ((m.acquire (.maptBlock k)).acquire (.tableBuf k m.ctx.blkExpSize)) :=
          (h.log (fun _ _ he => Event.noConfusion he)).log (fun _ _ he => Event.noConfusion he)
        refine ⟨htwo.expan, htwo.blkExpSize, fun k' b hb => ?_, htwo.trace⟩
        by_cases hk : k' = k
        · subst hk
          simp only [Function.update_self] at hb
          rw [← Option.some.inj hb]
          exact h.blkExpSize
        · simp only [Function.update_of_ne hk] at hb
          exact htwo.blocks k' b hb
      · rw [if_neg hsize]
        exact ⟨hboth.expan, hboth.blkExpSize, hboth.blocks, hboth.trace⟩

lemma Sized.link (h : Sized e s m) (r : NodeRef) (k l : Nat) :
    Sized e s (linkLevelBlock r k l m).2 := by
  have hstores := h.stores r
    [fun n => { n with nextLvIndex := BitVec.ofNat 16 k },
     fun n => { n with nextLvOffsetLow := lvlOffsetLow (maxMaptEntryIndex * (l % perMaptLevelBlockCnt)) },
     fun n => { n with nextLvOffsetHigh := lvlOffsetHigh (maxMaptEntryIndex * (l % perMaptLevelBlockCnt)) }]
  simp only [linkLevelBlock]
  refine Sized.modifyBlock ?_ k (fun _ => rfl)
  exact ⟨hstores.expan, hstores.blkExpSize, hstores.blocks, hstores.trace⟩

lemma Sized.alloc (h : Sized e s m) (r : NodeRef) (blk : Option Nat) :
    Sized e s (ummuAllocLevelBlock r blk m).2 := by
  unfold ummuAllocLevelBlock
  simp only
  generalize findFirstZeroBit m.ctx.levelBlockBitmap maxLevelIdSize = l
  by_cases hl : l ≥ maxLevelIdSize
  · rw [if_pos hl]
    have herrno : Sized e s { m with errno := erange } := ⟨h.expan, h.blkExpSize, h.blocks, h.trace⟩
    exact herrno.log (fun _ _ he => Event.noConfusion he)
  rw [if_neg hl]
  have hstore := h.store r (fun n => { n with nextBlock := false })
  generalize m.store r (fun n => { n with nextBlock := false }) = m₁ at hstore ⊢
  cases m₁.ctx.maptBlockArray (l / perMaptLevelBlockCnt) with
  | none =>
    have hnew := hstore.newBlock (l / perMaptLevelBlockCnt)
    simp only
    generalize ummuAllocNewMaptBlock m₁.ctx.blkExpSize (l / perMaptLevelBlockCnt) m₁ = q at hnew ⊢
    obtain ⟨ok, m₂⟩ := q
    cases ok with
    | false => exact hnew
    | true => exact (hnew.store r _).link _ _ _
  | some b =>
    apply Sized.link
    split_ifs
    · exact hstore.store r _
    · exact hstore

lemma Sized.unmap (h : Sized e s m) (k size : Nat) :
    Sized e s (({ m with ctx := { m.ctx with
        maptBlockArray := Function.update m.ctx.maptBlockArray k none
        blockCnt := dec16 m.ctx.blockCnt } }.release (.tableBuf k size)).release (.maptBlock k)) := by
  apply Sized.log
  · apply Sized.log
    · refine ⟨h.expan, h.blkExpSize, fun k' b hb => ?_, h.trace⟩
      by_cases hk : k' = k
      · simp only [hk, Function.update_self] at hb
        cases hb
      · simp only [Function.update_of_ne hk] at hb
        exact h.blocks k' b hb
    · exact fun _ _ he => Event.noConfusion he
  · exact fun _ _ he => Event.noConfusion he

lemma Sized.free (h : Sized e s m) (r : NodeRef) : Sized e s (ummuFreeLevelBlock r m) := by
  unfold ummuFreeLevelBlock
  simp only
  cases m.ctx.maptBlockArray (m.node r).nextLvIndex.toNat with
  | none => exact h
  | some block =>
    have hmark : Sized e s (if block.blockId * perMaptLevelBlockCnt +
        (m.node r).lvOffset / maxMaptEntryIndex ≠ 0 then
        { m.modifyBlock (m.node r).nextLvIndex.toNat (fun b => { b with levelCnt := dec16 b.levelCnt }) with
          ctx := { (m.modifyBlock (m.node r).nextLvIndex.toNat
              (fun b => { b with levelCnt := dec16 b.levelCnt })).ctx with
            levelBlockBitmap := ummuClearBit (block.blockId * perMaptLevelBlockCnt +
              (m.node r).lvOffset / maxMaptEntryIndex) (m.modifyBlock (m.node r).nextLvIndex.toNat
                (fun b => { b with levelCnt := dec16 b.levelCnt })).ctx.levelBlockBitmap } }
        else m) := by
      split_ifs
      · have hcnt := h.modifyBlock (m.node r).nextLvIndex.toNat
          (f := fun b => { b with levelCnt := dec16 b.levelCnt }) (fun _ => rfl)
        exact ⟨hcnt.expan, hcnt.blkExpSize, hcnt.blocks, hcnt.trace⟩
      · exact h
    simp only at hmark ⊢
    generalize (if block.blockId * perMaptLevelBlockCnt +
      (m.node r).lvOffset / maxMaptEntryIndex ≠ 0 then _ else m) = m₁ at hmark ⊢
    cases m₁.ctx.maptBlockArray (m.node r).nextLvIndex.toNat with
    | none => exact hmark
    | some b =>
      simp only
      split_ifs
      · exact hmark.unmap _ _
      · exact hmark

end Sized

section Calls

variable {y : Prop} {P : MaptInfo → ApiCall → Prop} {info : MaptInfo} {c : TableCtx}
  {t : RangeTable} {o : Option RangeTable}

/-- The events of a call are those that the table operations log from a state with the invariant. -/
lemma TableOutcome.quiet {sub : SegBlock 3} {r : CallResult} (h : TableOutcome y info t sub r) :
    ∀ ev ∈ r.trace, ∃ E, Quiet E ev := by
  cases h with
  | refused _ => exact fun _ hev => absurd hev List.not_mem_nil
  | granted _ _ _ _ htrace => exact fun ev hev => ⟨_, htrace ev hev⟩
  | allocFailed _ _ _ _ _ htrace =>
    obtain ⟨es, es', hes, _, h1, h2⟩ := htrace
    intro ev hev
    rcases List.mem_append.mp (hes ▸ hev) with hev | hev
    · exact ⟨_, h1 ev hev⟩
    · exact ⟨_, h2 ev hev⟩
  | token _ _ _ _ _ _ htrace => exact fun ev hev => ⟨_, htrace ev hev⟩
  | ungranted _ _ _ _ htrace => exact fun ev hev => ⟨_, htrace ev hev⟩

/-- A tid for which the driver reports blocks of `size`. -/
def smallTid (size : Nat) : Option MaptInfo :=
  ummuMaptCreate ⟨1, .table, 5, size⟩ (roomyEnv .zero)

/-- Whether one of four grants in the first 2 MB addresses a node outside of its block. -/
def leavesBlock (info : MaptInfo) : Bool :=
  let calls := [grantPage 0, grantPage 0x2000, grantPage 0x4000, grantPage 0x6000]
  let run := calls.foldl (fun (p : MaptInfo × List Event) call =>
    ((call.run p.1).info, p.2 ++ (call.run p.1).trace)) (info, [])
  run.2.any (fun ev =>
    match ev with
    | .access pos blkSize => decide (blkSize < (pos + 1) * tableNodeSize)
    | _ => false)

/-- The smaller sizes that `ummu_get_core_buf` accepts do not hold four level blocks. -/
example : ∀ size ∈ [blockSize16K, 2 * blockSize16K],
    (smallTid size).map leavesBlock = some true := by decide +kernel

end Calls

end Ummu
