import Ummu.Resource

/-!
# The memory address permission table

The data of `ummu_mapt.h`: table nodes with their bit fields, mapt blocks, the table context of
a tid, and the address macros. A `Machine` is a table context together with what one table
operation works on: its local root node, `data_info->lvl`, `errno`, the resources that the
allocations of the call will get, and the record of what it did.
-/

namespace Ummu

/-- `struct ummu_mapt_table_node`. `type` is set for a leaf and clear for a node with a child
level block. -/
@[ext] structure TableNode where
  valid : Bool
  type : Bool
  nextBlock : Bool
  eBit : Bool
  permission : BitVec 6
  nextLvOffsetLow : BitVec 20
  nextLvOffsetHigh : BitVec 10
  nextLvIndex : BitVec 16
  baseLow : BitVec 32
  baseHigh : BitVec 7
  tokenCheck : Bool
  limitLow : BitVec 32
  limitHigh : BitVec 7
  nonce : BitVec 2
  tokenVal0 : BitVec 32
  tokenVal1 : BitVec 32
deriving DecidableEq

/-- A node of zero bytes. -/
def TableNode.zero : TableNode :=
  ⟨false, false, false, false, 0, 0, 0, 0, 0, 0, false, 0, 0, 0, 0, 0⟩

instance : Inhabited TableNode := ⟨TableNode.zero⟩

def maxLevelIndex : Nat := 3
def perMaptLevelBlockCnt : Nat := 4
def maxMaptEntryIndex : Nat := 512
def indexMaxSize : Nat := 512
def maxLevelIdSize : Nat := indexMaxSize * perMaptLevelBlockCnt
def maxAddressBits : Nat := 48
def ummuMaxTokenNum : Nat := 2
def maptVpageShift : Nat := 12

/-- `g_mapt_range_bits`, with zeros past its four rows. -/
def gMaptRangeBits : Nat → Nat × Nat
  | 0 => (47, 39)
  | 1 => (38, 30)
  | 2 => (29, 21)
  | 3 => (20, 12)
  | _ => (0, 0)

def getBitsMask (bits : Nat) : Nat := 2 ^ bits - 1

def getLevelRangeMask (level : Nat) : Nat := getBitsMask (gMaptRangeBits level).2

def getLevelBlockIndex (addr level : Nat) : Nat :=
  (addr >>> (gMaptRangeBits level).2) &&&
    getBitsMask ((gMaptRangeBits level).1 - (gMaptRangeBits level).2 + 1)

/-- `GENMASK_ULL`. -/
def genmaskUll (h l : Nat) : Nat := (2 ^ 64 - 2 ^ l) &&& ((2 ^ 64 - 1) >>> (63 - h))

def tableAddrLow (addr : Nat) : BitVec 32 := BitVec.ofNat 32 (addr &&& genmaskUll 31 0)
def tableAddrHigh (addr : Nat) : BitVec 7 := BitVec.ofNat 7 ((addr &&& genmaskUll 38 32) >>> 32)
def lvlOffsetLow (offset : Nat) : BitVec 20 := BitVec.ofNat 20 (offset &&& genmaskUll 19 0)
def lvlOffsetHigh (offset : Nat) : BitVec 10 :=
  BitVec.ofNat 10 ((offset &&& genmaskUll 29 20) >>> 20)

/-- `ADDR_FULL`, for the high halves of both kinds of node. -/
def addrFull {w : Nat} (low : BitVec 32) (high : BitVec w) : Nat :=
  (high.toNat <<< 32) ||| low.toNat

def tableLvlOffset (low : BitVec 20) (high : BitVec 10) : Nat := (high.toNat <<< 20) ||| low.toNat

def TableNode.base (n : TableNode) : Nat := addrFull n.baseLow n.baseHigh
def TableNode.limit (n : TableNode) : Nat := addrFull n.limitLow n.limitHigh
def TableNode.lvOffset (n : TableNode) : Nat := tableLvlOffset n.nextLvOffsetLow n.nextLvOffsetHigh

/-- `struct ummu_mapt_block`; `blockAddr` is the mapped memory, node by node. -/
structure MaptBlock where
  blockAddr : Nat → TableNode
  blkSize : Nat
  blockId : Nat
  levelCnt : Nat
  levelEntryCnt : Nat → Nat

/-- `struct ummu_mapt_table_ctx` without the range table. -/
structure TableCtx where
  expan : Bool
  blockCnt : Nat
  blkExpSize : Nat
  levelBlockBitmap : Bitmap
  maptBlockArray : Nat → Option MaptBlock

/-- A pointer to a table node: the local root of `ummu_table_op`, or a position in a mapt block. -/
inductive NodeRef where
  | root
  | slot (blk off : Nat)
deriving DecidableEq

/-- The internal errors that the table functions log. -/
inductive TableError where
  | levelOverflow
  | maptBlockInvalid
  | nodeSupposeInvalid
  | rteSupposeValid
  | unexpectedFailed
  | unexpectedLoopCnt
  | nodeOrNonceInvalid
  | tokenvalInvalid
  | opInvalid
  | invalidLevelId
  | allocLevelBlockFailed
deriving DecidableEq

def TableError.text : TableError → String
  | .levelOverflow => "Level overflow."
  | .maptBlockInvalid => "Mapt block is invalid."
  | .nodeSupposeInvalid => "Node suppose to be invalid."
  | .rteSupposeValid => "Unexpected failed, rte suppose to be valid."
  | .unexpectedFailed => "Unexpected failed."
  | .unexpectedLoopCnt => "Unexpected loop cnt."
  | .nodeOrNonceInvalid => "Node or nonce is invalid."
  | .tokenvalInvalid => "Tokenval is invalid."
  | .opInvalid => "Op type is invalid."
  | .invalidLevelId => "Invalid level id."
  | .allocLevelBlockFailed => "Alloc new level_block failed."

/-- What a table operation does, in the order in which it happens: a node position it addresses
and the size of the mapt block it takes it from, a row of `g_mapt_range_bits` it reads, a field
store with the table that the device sees after it, an internal error, a resource that is taken or
given back. -/
inductive Event where
  | access (pos blkSize : Nat)
  | rangeBits (level : Nat)
  | store (ref : NodeRef) (ctx : TableCtx)
  | error (e : TableError)
  | resource (e : ResourceEvent)

/-- What one `calloc` of a block descriptor and the `mmap` behind it give. -/
inductive MapOutcome where
  | callocFailed
  | mmapFailed
  | mapped (mem : Nat → TableNode)

/-- The state of one table operation. `maps` lists what the coming mappings give; past its end
`calloc` fails. -/
structure Machine where
  ctx : TableCtx
  root : TableNode
  lvl : Nat
  errno : Int
  maps : List MapOutcome
  trace : List Event

namespace TableCtx

/-- `mapt_block_array[k]` with its block changed by `f`, where there is one. -/
def modifyBlock (c : TableCtx) (k : Nat) (f : MaptBlock → MaptBlock) : TableCtx :=
  { c with maptBlockArray :=
      Function.update c.maptBlockArray k ((c.maptBlockArray k).map f) }

/-- The node at position `off` of mapt block `blk`. -/
def node (c : TableCtx) (blk off : Nat) : TableNode :=
  match c.maptBlockArray blk with
  | some b => b.blockAddr off
  | none => default

def setNode (c : TableCtx) (blk off : Nat) (n : TableNode) : TableCtx :=
  c.modifyBlock blk (fun b => { b with blockAddr := Function.update b.blockAddr off n })

end TableCtx

namespace Machine

def log (m : Machine) (e : Event) : Machine := { m with trace := m.trace ++ [e] }

def error (m : Machine) (e : TableError) : Machine := m.log (.error e)

def node (m : Machine) : NodeRef → TableNode
  | .root => m.root
  | .slot blk off => m.ctx.node blk off

/-- One field store. A store into the local root is not seen by the device. -/
def store (m : Machine) (r : NodeRef) (f : TableNode → TableNode) : Machine :=
  match r with
  | .root => { m with root := f m.root }
  | .slot blk off =>
    let ctx := m.ctx.setNode blk off (f (m.ctx.node blk off))
    { m with ctx := ctx, trace := m.trace ++ [.store r ctx] }

/-- Field stores in program order. -/
def stores (m : Machine) (r : NodeRef) (fs : List (TableNode → TableNode)) : Machine :=
  fs.foldl (fun m f => m.store r f) m

/-- The function takes the address of node `off` of mapt block `b`. -/
def access (m : Machine) (b : MaptBlock) (off : Nat) : Machine := m.log (.access off b.blkSize)

def acquire (m : Machine) (r : Resource) : Machine := m.log (.resource (.acquire r))

def release (m : Machine) (r : Resource) : Machine := m.log (.resource (.release r))

def modifyBlock (m : Machine) (k : Nat) (f : MaptBlock → MaptBlock) : Machine :=
  { m with ctx := m.ctx.modifyBlock k f }

end Machine

/-- `enum ummu_grant_op_type`. -/
inductive GrantOpType where
  | grant
  | addToken
  | removeToken
  | ungrant
  | opEnd
deriving DecidableEq

/-- `struct ummu_data_info`; `lvl` is in the machine. Addresses and sizes are 64-bit values. -/
structure DataInfo where
  dataSize : Nat
  perm : BitVec 32
  tokenVal : BitVec 32
  dataBase : Nat
  dataLimit : Nat
  tokenCheck : Bool
  bytoken : Bool
  eBit : BitVec 32
  op : GrantOpType

end Ummu
