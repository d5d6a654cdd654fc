import Ummu.Mapt

/-!
# Level blocks

The allocator of `ummu_level_block.c`: level ids come from the bitmap, four to a mapt block, and
a mapt block is mapped for its first level block and unmapped after its last one. The link of a
node to its child level block is its `(next_lv_index, next_lv_offset)`.
-/

namespace Ummu

/-- `++` on a `uint16_t`. -/
def inc16 (x : Nat) : Nat := if x = 2 ^ 16 - 1 then 0 else x + 1

/-- `--` on a `uint16_t`. -/
def dec16 (x : Nat) : Nat := if x = 0 then 2 ^ 16 - 1 else x - 1

def blockSize16K : Nat := 0x4000
def blockSize2M : Nat := 0x200000

/-- `ummu_get_core_buf` asks for a mapping of a table block only for these sizes. -/
def tableBlockSizeOk (size : Nat) : Bool :=
  size ≠ 0 && decide (blockSize16K ≤ size) && decide (size ≤ blockSize2M)

/-- `ummu_alloc_new_mapt_block`; the code tells whether a block was made. -/
def ummuAllocNewMaptBlock (blockSize blockIndex : Nat) (m : Machine) : Bool × Machine :=
  let m := { m with errno := 0 }
  if m.ctx.expan ≠ true ∧ blockIndex ≠ 0 then (false, { m with errno := erange })
  else
    match m.maps with
    | [] => (false, { m with errno := enomem })
    | .callocFailed :: rest => (false, { m with errno := enomem, maps := rest })
    | .mmapFailed :: rest =>
      let m := (m.acquire (.maptBlock blockIndex)).release (.maptBlock blockIndex)
      (false, { m with errno := enomem, maps := rest })
    | .mapped mem :: rest =>
      let m := m.acquire (.maptBlock blockIndex)
      if tableBlockSizeOk blockSize then
        let m := m.acquire (.tableBuf blockIndex blockSize)
        let block : MaptBlock := ⟨mem, blockSize, blockIndex, 0, fun _ => 0⟩
        let ctx := { m.ctx with
          maptBlockArray := Function.update m.ctx.maptBlockArray blockIndex (some block)
          blockCnt := inc16 m.ctx.blockCnt }
        (true, { m with ctx := ctx, maps := rest })
      else (false, { m.release (.maptBlock blockIndex) with errno := enomem, maps := rest })

/-- The link stores and counter updates at the end of `ummu_alloc_level_block`. -/
def linkLevelBlock (r : NodeRef) (maptBlockIndex levelId : Nat) (m : Machine) :
    Option NodeRef × Machine :=
  let nextLvOffset := maxMaptEntryIndex * (levelId % perMaptLevelBlockCnt)
  let m := m.stores r
    [fun n => { n with nextLvIndex := BitVec.ofNat 16 maptBlockIndex },
     fun n => { n with nextLvOffsetLow := lvlOffsetLow nextLvOffset },
     fun n => { n with nextLvOffsetHigh := lvlOffsetHigh nextLvOffset }]
  let ctx := { m.ctx with levelBlockBitmap := ummuSetBit levelId m.ctx.levelBlockBitmap }
  let m := { m with ctx := ctx }.modifyBlock maptBlockIndex
    (fun b => { b with levelCnt := inc16 b.levelCnt })
  (some (.slot maptBlockIndex nextLvOffset), m)

/-- `ummu_alloc_level_block`; `preBlk` is the index of the mapt block of `preNode`, if any. -/
def ummuAllocLevelBlock (preNode : NodeRef) (preBlk : Option Nat) (m : Machine) :
    Option NodeRef × Machine :=
  let levelId := findFirstZeroBit m.ctx.levelBlockBitmap maxLevelIdSize
  if levelId ≥ maxLevelIdSize then
    (none, { m with errno := erange }.error .invalidLevelId)
  else
    let m := m.store preNode (fun n => { n with nextBlock := false })
    let maptBlockIndex := levelId / perMaptLevelBlockCnt
    match m.ctx.maptBlockArray maptBlockIndex with
    | none =>
      match ummuAllocNewMaptBlock m.ctx.blkExpSize maptBlockIndex m with
      | (false, m) => (none, m)
      | (true, m) =>
        linkLevelBlock preNode maptBlockIndex levelId
          (m.store preNode (fun n => { n with nextBlock := true }))
    | some _ =>
      linkLevelBlock preNode maptBlockIndex levelId
        (if preBlk ≠ some maptBlockIndex then
          m.store preNode (fun n => { n with nextBlock := true }) else m)

/-- `ummu_free_level_block` for a node `prevNode` that is not null. -/
def ummuFreeLevelBlock (prevNode : NodeRef) (m : Machine) : Machine :=
  let lvOffset := (m.node prevNode).lvOffset
  let lvIndex := (m.node prevNode).nextLvIndex.toNat
  match m.ctx.maptBlockArray lvIndex with
  | none => m
  | some block =>
    let levelId := block.blockId * perMaptLevelBlockCnt + lvOffset / maxMaptEntryIndex
    let m :=
      if levelId ≠ 0 then
        let m := m.modifyBlock lvIndex
          (fun b => { b with levelCnt := dec16 b.levelCnt })
        { m with ctx :=
          { m.ctx with levelBlockBitmap := ummuClearBit levelId m.ctx.levelBlockBitmap } }
      else m
    match m.ctx.maptBlockArray lvIndex with
    | none => m
    | some b =>
      if b.levelCnt = 0 ∧ m.ctx.blockCnt > 1 then
        let ctx := { m.ctx with
          maptBlockArray := Function.update m.ctx.maptBlockArray block.blockId none
          blockCnt := dec16 m.ctx.blockCnt }
        ({ m with ctx := ctx }.release (.tableBuf block.blockId m.ctx.blkExpSize)).release
          (.maptBlock block.blockId)
      else m

/-- The stores that turn a node into a leaf after its child level block was freed. -/
def unlinkStores : List (TableNode → TableNode) :=
  [fun n => { n with type := true },
   fun n => { n with nextBlock := false },
   fun n => { n with nextLvOffsetLow := 0 },
   fun n => { n with nextLvOffsetHigh := 0 },
   fun n => { n with nextLvIndex := 0 }]

end Ummu
