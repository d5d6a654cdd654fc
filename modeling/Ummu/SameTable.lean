import Ummu.Refinement
import Ummu.Closed

/-!
# Tables that say the same

Two table contexts that hold the same tree and the same tokens cannot be told apart: not by the
device, which reads the nodes that it reaches, and not by the library, which reads the bitmap, the
block array and the counters besides.
-/

namespace Ummu

open Lib Machine Cell

/-- The nodes say the same. The link of a node counts where there is a child block. -/
structure SameNode (n n' : TableNode) : Prop where
  valid : n'.valid = n.valid
  type : n.valid = true → n'.type = n.type
  range : n.valid = true → n'.base = n.base ∧ n'.limit = n.limit
  attrs : n.valid = true → n'.permission = n.permission ∧ n'.eBit = n.eBit ∧
    n'.tokenCheck = n.tokenCheck
  tokens : n.valid = true → n'.tokens = n.tokens
  link : n.valid = true → n.type = false →
    n'.nextBlock = n.nextBlock ∧ n'.nextLvIndex = n.nextLvIndex ∧ n'.lvOffset = n.lvOffset

/-- The same nodes are reached and say the same; the bitmap, the block array and all counters are
equal. -/
structure SameCtx (c c' : TableCtx) : Prop where
  expan : c'.expan = c.expan
  blkExpSize : c'.blkExpSize = c.blkExpSize
  bitmap : c'.levelBlockBitmap = c.levelBlockBitmap
  blockCnt : c'.blockCnt = c.blockCnt
  mapped : ∀ k, (c'.maptBlockArray k).isSome = (c.maptBlockArray k).isSome
  block : ∀ k b b', c.maptBlockArray k = some b → c'.maptBlockArray k = some b' →
    b'.blockId = b.blockId ∧ b'.levelCnt = b.levelCnt
  entryCnt : ∀ l, c'.entryCount l = c.entryCount l
  reach : ∀ path, c'.reach rootPlace path = c.reach rootPlace path
  node : ∀ path q, c.reach rootPlace path = some q →
    SameNode (c.node q.blk q.off) (c'.node q.blk q.off)

section Same

variable {y : Prop} {z z' : NodeRule} {c c' : TableCtx} {t : RangeTable} {d id a : Nat}
  {s : SegInfo}

end Same

end Ummu
