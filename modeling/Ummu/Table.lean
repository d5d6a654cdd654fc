import Ummu.LevelBlock
import Ummu.Lib.Loop

/-!
# Table operations

The recursive walks of `ummu_mapt.c` over the four-level table. The recursion is on `rem`, the
number of levels below and including the current one: the level of the source is
`maxLevelIndex + 1 - rem`, and `rem = 0` is the level that the source rejects.
-/

namespace Ummu

open Lib

def levelOf (rem : Nat) : Nat := maxLevelIndex + 1 - rem

/-- The token slots that `ummu_add_token` and `ummu_remove_token` of the source reach through
`struct ummu_mapt_entry_node`; table nodes have the same layout there. -/
def ummuAddToken (r : NodeRef) (d : DataInfo) (m : Machine) : Int × Machine :=
  if (m.node r).valid = true ∧ (m.node r).nonce = 1 then
    (0, m.stores r
      [fun n => { n with tokenVal1 := d.tokenVal },
       fun n => { n with nonce := BitVec.ofNat 2 ummuMaxTokenNum }])
  else (-einval, m.error .nodeOrNonceInvalid)

def ummuRemoveToken (r : NodeRef) (d : DataInfo) (m : Machine) : Int × Machine :=
  if (m.node r).tokenVal0 = d.tokenVal then
    (0, m.stores r
      [fun n => { n with tokenVal0 := n.tokenVal1 }, fun n => { n with nonce := 1 }])
  else if (m.node r).tokenVal1 = d.tokenVal then
    (0, m.stores r
      [fun n => { n with tokenVal1 := n.tokenVal0 }, fun n => { n with nonce := 1 }])
  else (-einval, m.error .tokenvalInvalid)

def ummuUpdateToken (r : NodeRef) (d : DataInfo) (m : Machine) : Int × Machine :=
  match d.op with
  | .addToken => ummuAddToken r d m
  | .removeToken => ummuRemoveToken r d m
  | _ => (-einval, m.error .opInvalid)

/-- The field stores of `ummu_table_fill_node`; `valid` is the last one. -/
def fillStores (base limit : Nat) (d : DataInfo) : List (TableNode → TableNode) :=
  [fun n => { n with type := true },
   fun n => { n with permission := d.perm.setWidth 6 },
   fun n => { n with baseLow := tableAddrLow base },
   fun n => { n with baseHigh := tableAddrHigh base },
   fun n => { n with limitLow := tableAddrLow limit },
   fun n => { n with limitHigh := tableAddrHigh limit },
   fun n => { n with tokenCheck := d.tokenCheck },
   fun n => { n with eBit := d.eBit.getLsbD 0 }] ++
  (if d.tokenCheck then
    [fun n => { n with tokenVal0 := d.tokenVal },
     fun n => { n with tokenVal1 := d.tokenVal },
     fun n => { n with nonce := 1 }]
   else []) ++
  [fun n => { n with valid := true }]

def ummuTableFillNode (r : NodeRef) (base limit : Nat) (d : DataInfo) (m : Machine) : Machine :=
  m.stores r (fillStores base limit d)

/-- `memset(node, 0, sizeof(*node))`, by 32-bit words from the first one on. -/
def memsetStores : List (TableNode → TableNode) :=
  [fun n => { n with
     valid := false, type := false, nextBlock := false, eBit := false, permission := 0,
     nextLvOffsetLow := 0 },
   fun n => { n with nextLvOffsetHigh := 0, nextLvIndex := 0 },
   fun n => { n with baseLow := 0 },
   fun n => { n with baseHigh := 0, tokenCheck := false },
   fun n => { n with limitLow := 0 },
   fun n => { n with limitHigh := 0, nonce := 0 },
   fun n => { n with tokenVal0 := 0 },
   fun n => { n with tokenVal1 := 0 }]

/-- `ummu_swap_node_info`: the range of child `idx` is copied up, prefixed with its slot. -/
def swapStores (next : TableNode) (idx level : Nat) : List (TableNode → TableNode) :=
  let limit := next.limit ||| (idx <<< (gMaptRangeBits (level + 1)).2)
  let base := next.base ||| (idx <<< (gMaptRangeBits (level + 1)).2)
  [fun n => { n with baseLow := tableAddrLow base },
   fun n => { n with baseHigh := tableAddrHigh base },
   fun n => { n with limitLow := tableAddrLow limit },
   fun n => { n with limitHigh := tableAddrHigh limit },
   fun n => { n with nonce := next.nonce },
   fun n => { n with tokenVal0 := next.tokenVal0 },
   fun n => { n with tokenVal1 := next.tokenVal1 },
   fun n => { n with permission := next.permission },
   fun n => { n with eBit := next.eBit },
   fun n => { n with tokenCheck := next.tokenCheck }]

/-- `level_entry_cnt[idx]` of mapt block `blk` goes up or down by one. -/
def stepEntryCnt (blk idx : Nat) (up : Bool) (m : Machine) : Machine :=
  m.modifyBlock blk (fun b => { b with
    levelEntryCnt := Function.update b.levelEntryCnt idx
      (if up then inc16 (b.levelEntryCnt idx) else dec16 (b.levelEntryCnt idx)) })

/-- `ummu_modify_entry_cnt` with `cnt = 1` (`up`) and `cnt = -1`. -/
def ummuModifyEntryCnt (blk lvOffset : Nat) (up : Bool) (m : Machine) : Machine :=
  stepEntryCnt blk (lvOffset / maxMaptEntryIndex) up m

/-- `level_entry_cnt[idx]` of mapt block `blk`. -/
def entryCnt (m : Machine) (blk idx : Nat) : Nat :=
  match m.ctx.maptBlockArray blk with
  | some b => b.levelEntryCnt idx
  | none => 0

/-- The addresses that the loop of `ummu_swap_next_level_node` takes in `n` rounds. -/
def accesses (b : MaptBlock) (off : Nat) (n : Nat) (m : Machine) : Machine :=
  (List.range n).foldl (fun m i => m.access b (off + i)) m

/-- The child block of a node: `(next_lv_index, next_lv_offset)`. -/
def Machine.childBlk (m : Machine) (r : NodeRef) : Nat := (m.node r).nextLvIndex.toNat
def Machine.childOff (m : Machine) (r : NodeRef) : Nat := (m.node r).lvOffset

def ummuSwapNextLevelNode : Nat → NodeRef → Machine → Machine
  | 0, _, m => m
  | rem + 1, r, m =>
    let blk := m.childBlk r
    let off := m.childOff r
    match m.ctx.maptBlockArray blk with
    | none => m.error .maptBlockInvalid
    | some b =>
      match firstIndex (fun i => (m.ctx.node blk (off + i)).valid) 0 maxMaptEntryIndex with
      | none => accesses b off maxMaptEntryIndex m
      | some i =>
        let m := (accesses b off (i + 1) m).log (.rangeBits (levelOf (rem + 1) + 1))
        let next := NodeRef.slot blk (off + i)
        let m := m.stores r (swapStores (m.node next) i (levelOf (rem + 1)))
        if (m.node next).type = false then ummuSwapNextLevelNode rem next m
        else
          let m := m.stores next
            [fun n => { n with valid := false }, fun n => { n with nonce := 0 }]
          let idx := off / maxMaptEntryIndex % 2 ^ 8
          let m := stepEntryCnt blk idx false m
          if entryCnt m blk idx = 0 then
            (ummuFreeLevelBlock r m).stores r unlinkStores
          else m

/-- `ummu_table_clear_node` at level `levelOf rem`. -/
def ummuTableClearNode (rem : Nat) (cur pre : NodeRef) (m : Machine) : Machine :=
  let blk := m.childBlk pre
  let off := m.childOff pre
  match m.ctx.maptBlockArray blk with
  | none => m.error .maptBlockInvalid
  | some _ =>
    if (m.node cur).type = true then
      let m := ummuModifyEntryCnt blk off false (m.stores cur memsetStores)
      if entryCnt m blk (off / indexMaxSize) = 0 then
        (ummuFreeLevelBlock pre m).stores pre unlinkStores
      else m
    else ummuSwapNextLevelNode rem cur m

def ummuTableFillNodeByLevel (d : DataInfo) :
    Nat → NodeRef → Nat → Nat → Machine → Int × Machine
  | 0, _, _, _, m => (-einval, m.error .levelOverflow)
  | rem + 1, pre, lvlBase, lvlLimit, m =>
    let level := levelOf (rem + 1)
    let off := m.childOff pre
    let blk := m.childBlk pre
    match m.ctx.maptBlockArray blk with
    | none => (-einval, m.error .maptBlockInvalid)
    | some b =>
      let m := m.log (.rangeBits level)
      let baseIdx := getLevelBlockIndex lvlBase level
      let limitIdx := getLevelBlockIndex lvlLimit level
      let lvlMsk := getLevelRangeMask level
      forRange (fun i m =>
        let cur := NodeRef.slot blk (off + i)
        let m := m.access b (off + i)
        let nodeBase := if i = baseIdx then lvlBase &&& lvlMsk else 0
        let nodeLimit := if i = limitIdx then lvlLimit &&& lvlMsk else lvlMsk
        if baseIdx < i ∧ i < limitIdx then
          if (m.node cur).valid = true then (-einval, m.error .nodeSupposeInvalid)
          else (0, ummuModifyEntryCnt blk off true (ummuTableFillNode cur nodeBase nodeLimit d m))
        else if (m.node cur).valid = true then
          if (m.node cur).type = true then
            match ummuAllocLevelBlock cur (some blk) m with
            | (none, m) => (-m.errno, m.error .allocLevelBlockFailed)
            | (some _, m) =>
              ummuTableFillNodeByLevel d rem cur nodeBase nodeLimit
                (m.store cur (fun n => { n with type := false }))
          else ummuTableFillNodeByLevel d rem cur nodeBase nodeLimit m
        else (0, ummuModifyEntryCnt blk off true (ummuTableFillNode cur nodeBase nodeLimit d m)))
        baseIdx (limitIdx + 1 - baseIdx) m

def maxLoop : Nat := maxMaptEntryIndex <<< maxLevelIndex

/-- The `do`-`while` of `ummu_table_clear_head_node` with `left` rounds to `max_loop`, from the
limit `curLimit` of the range that `cur` holds. The value is `rest_node_base`. -/
def clearHeadLoop (rem : Nat) (pre cur : NodeRef) (nodeLimit : Nat) :
    Nat → Nat → Machine → Option Nat × Machine
  | 0, _, m => (none, m.error .unexpectedLoopCnt)
  | left + 1, curLimit, m =>
    let rest := curLimit + 1
    let m := ummuTableClearNode rem cur pre m
    if left = 0 then (none, m.error .unexpectedLoopCnt)
    else if (m.node pre).type = false ∧ (m.node cur).valid = true then
      if rest = (m.node cur).base ∧ (m.node cur).limit ≤ nodeLimit then
        clearHeadLoop rem pre cur nodeLimit left (m.node cur).limit m
      else (some rest, m)
    else (some rest, m)

/-- `ummu_table_clear_head_node` at level `levelOf rem`; `next` is
`ummu_table_clear_node_by_level` one level down. -/
def ummuTableClearHeadNode (next : NodeRef → Nat → Nat → Machine → Int × Machine) (rem : Nat)
    (pre cur : NodeRef) (nodeBase nodeLimit : Nat) (m : Machine) : Int × Machine :=
  if (m.node cur).base = nodeBase then
    let m := { m with lvl := min (levelOf rem) m.lvl }
    match clearHeadLoop rem pre cur nodeLimit maxLoop (m.node cur).limit m with
    | (none, m) => (-einval, m)
    | (some rest, m) =>
      if (m.node pre).type = false ∧ rest ≤ nodeLimit ∧ (m.node cur).valid = true ∧
          (m.node cur).type = false then
        next cur rest nodeLimit m
      else (0, m)
  else if (m.node cur).type = false then next cur nodeBase nodeLimit m
  else (-einval, m.error .unexpectedFailed)

def ummuTableClearNodeByLevel : Nat → NodeRef → Nat → Nat → Machine → Int × Machine
  | 0, _, _, _, m => (-einval, m.error .levelOverflow)
  | rem + 1, pre, lvlBase, lvlLimit, m =>
    let level := levelOf (rem + 1)
    let blk := m.childBlk pre
    let off := m.childOff pre
    match m.ctx.maptBlockArray blk with
    | none => (-einval, m.error .maptBlockInvalid)
    | some b =>
      let m := m.log (.rangeBits level)
      let baseIdx := getLevelBlockIndex lvlBase level
      let limitIdx := getLevelBlockIndex lvlLimit level
      let lvlMsk := getLevelRangeMask level
      forRange (fun i m =>
        let cur := NodeRef.slot blk (off + i)
        let m := m.access b (off + i)
        if (m.node cur).valid = false then (-einval, m.error .rteSupposeValid)
        else
          let nodeBase := if i = baseIdx then lvlBase &&& lvlMsk else 0
          let nodeLimit := if i = limitIdx then lvlLimit &&& lvlMsk else lvlMsk
          if baseIdx < i ∧ i < limitIdx then (0, ummuTableClearNode (rem + 1) cur pre m)
          else
            ummuTableClearHeadNode (ummuTableClearNodeByLevel rem) (rem + 1) pre cur
              nodeBase nodeLimit m)
        baseIdx (limitIdx + 1 - baseIdx) m

def ummuTableUpdateTokenByLevel (d : DataInfo) :
    Nat → NodeRef → Nat → Nat → Machine → Int × Machine
  | 0, _, _, _, m => (-einval, m.error .levelOverflow)
  | rem + 1, pre, lvlBase, lvlLimit, m =>
    let level := levelOf (rem + 1)
    let blk := m.childBlk pre
    let off := m.childOff pre
    match m.ctx.maptBlockArray blk with
    | none => (-einval, m.error .maptBlockInvalid)
    | some b =>
      let m := m.log (.rangeBits level)
      let baseIdx := getLevelBlockIndex lvlBase level
      let limitIdx := getLevelBlockIndex lvlLimit level
      let lvlMsk := getLevelRangeMask level
      forRange (fun i m =>
        let cur := NodeRef.slot blk (off + i)
        let m := m.access b (off + i)
        if (m.node cur).valid = false then (-einval, m.error .rteSupposeValid)
        else
          let nodeBase := if i = baseIdx then lvlBase &&& lvlMsk else 0
          let nodeLimit := if i = limitIdx then lvlLimit &&& lvlMsk else lvlMsk
          if baseIdx < i ∧ i < limitIdx then ummuUpdateToken cur d m
          else
            let curBase := (m.node cur).base
            let curLimit := (m.node cur).limit
            if curBase = nodeBase ∧ curLimit ≤ nodeLimit then
              let r := ummuUpdateToken cur d m
              if r.1 ≠ 0 then r
              else if (r.2.node cur).type = false ∧ curLimit < nodeLimit then
                ummuTableUpdateTokenByLevel d rem cur (curLimit + 1) nodeLimit r.2
              else (0, r.2)
            else if (m.node cur).type = false then
              ummuTableUpdateTokenByLevel d rem cur nodeBase nodeLimit m
            else (-einval, m.error .unexpectedFailed))
        baseIdx (limitIdx + 1 - baseIdx) m

/-- `ummu_table_op`; the walk starts at the local root node, which links to level block 0. -/
def ummuTableOp (d : DataInfo) (m : Machine) : Int × Machine :=
  let m := { m with root := TableNode.zero }
  match d.op with
  | .grant =>
    let r := ummuTableFillNodeByLevel d (maxLevelIndex + 1) .root d.dataBase d.dataLimit m
    if r.1 ≠ 0 then
      (r.1, (ummuTableClearNodeByLevel (maxLevelIndex + 1) .root d.dataBase d.dataLimit r.2).2)
    else r
  | .addToken | .removeToken =>
    ummuTableUpdateTokenByLevel d (maxLevelIndex + 1) .root d.dataBase d.dataLimit m
  | .ungrant =>
    ummuTableClearNodeByLevel (maxLevelIndex + 1) .root d.dataBase d.dataLimit m
  | .opEnd => (-einval, m.error .opInvalid)

end Ummu
