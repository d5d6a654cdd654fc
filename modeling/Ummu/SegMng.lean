import Ummu.Mapt
import Ummu.SegTree

/-!
# Segment management

`ummu_seg_mng.c`: what a grant or an ungrant asks for, decided from the entry node or from the
record of the segment in the range table, and the update of that record.
-/

namespace Ummu

/-- `struct ummu_mapt_entry_node`. -/
@[ext] structure EntryNode where
  valid : Bool
  eBit : Bool
  permission : BitVec 6
  baseLow : BitVec 32
  baseHigh : BitVec 16
  tokenCheck : Bool
  limitLow : BitVec 32
  limitHigh : BitVec 16
  nonce : BitVec 2
  tokenVal0 : BitVec 32
  tokenVal1 : BitVec 32
deriving DecidableEq

def EntryNode.zero : EntryNode := ⟨false, false, 0, 0, 0, false, 0, 0, 0, 0, 0⟩

def EntryNode.base (n : EntryNode) : Nat := addrFull n.baseLow n.baseHigh
def EntryNode.limit (n : EntryNode) : Nat := addrFull n.limitLow n.limitHigh

def ummuTableParamCheck (existAddr : SegInfo) (grantParam : DataInfo) : GrantOpType :=
  if (existAddr.tokenCheck = true ∧ grantParam.tokenCheck = true) ∧
      existAddr.permission = grantParam.perm ∧ existAddr.eBit = grantParam.eBit ∧
      existAddr.tokenCount = 1 then .addToken
  else .opEnd

def ummuUngrantParamCheck (existAddr : SegInfo) (grantParam : DataInfo) : GrantOpType :=
  if grantParam.bytoken = false then .ungrant
  else if existAddr.tokenCheck = false then .opEnd
  else if existAddr.tokenVal0 = grantParam.tokenVal ∨ existAddr.tokenVal1 = grantParam.tokenVal then
    if existAddr.tokenCount = 1 then .ungrant
    else if existAddr.tokenCount = BitVec.ofNat 8 ummuMaxTokenNum then .removeToken
    else .opEnd
  else .opEnd

def ummuRemoveTokenval (tokenval : BitVec 32) (data : SegInfo) : SegInfo :=
  let data :=
    if data.tokenVal0 = tokenval then { data with tokenVal0 := data.tokenVal1 }
    else if data.tokenVal1 = tokenval then { data with tokenVal1 := data.tokenVal0 }
    else data
  { data with tokenCount := 1 }

def ummuEntryParamCheck (node : EntryNode) (grantParam : DataInfo) : GrantOpType :=
  if node.valid = false then .grant
  else if node.base = grantParam.dataBase ∧ node.limit = grantParam.dataLimit ∧
      (node.tokenCheck = true ∧ grantParam.tokenCheck = true) ∧
      node.permission.toNat = grantParam.perm.toNat ∧ node.eBit.toNat = grantParam.eBit.toNat ∧
      node.nonce = 1 then .addToken
  else .opEnd

def ummuEntryUngrantParamCheck (node : EntryNode) (grantParam : DataInfo) : GrantOpType :=
  if node.valid = false then .opEnd
  else if node.base ≠ grantParam.dataBase ∨ node.limit ≠ grantParam.dataLimit then .opEnd
  else if grantParam.bytoken = false then .ungrant
  else if node.tokenCheck = true then
    if node.tokenVal0 ≠ grantParam.tokenVal ∧ node.tokenVal1 ≠ grantParam.tokenVal then .opEnd
    else if node.nonce = 1 then .ungrant
    else if node.nonce = BitVec.ofNat 2 ummuMaxTokenNum then .removeToken
    else .opEnd
  else .opEnd

/-- The table-mode part of `ummu_grant_check`. -/
def ummuTableGrantCheck (grantedAddrMng : Option RangeTable) (grantParam : DataInfo) :
    GrantOpType :=
  match grantedAddrMng with
  | none => .opEnd
  | some t =>
    match ummuFindSeg grantParam.dataBase (grantParam.dataSize - 1) t with
    | (some data, .rangeMatch) => ummuTableParamCheck data grantParam
    | (_, .rangeNotExist) => .grant
    | _ => .opEnd

/-- The table-mode part of `ummu_ungrant_check`. -/
def ummuTableUngrantCheck (grantedAddrMng : Option RangeTable) (grantParam : DataInfo) :
    GrantOpType :=
  match grantedAddrMng with
  | none => .opEnd
  | some t =>
    match ummuFindSeg grantParam.dataBase (grantParam.dataSize - 1) t with
    | (some data, .rangeMatch) => ummuUngrantParamCheck data grantParam
    | _ => .opEnd

/-- The record that `ummu_insert_new_addr` makes. -/
def newSegInfo (grantParam : DataInfo) : SegInfo where
  startAddr := grantParam.dataBase
  grantSize := grantParam.dataSize
  permission := grantParam.perm
  eBit := grantParam.eBit
  tokenCheck := grantParam.tokenCheck
  tokenCount := if grantParam.tokenCheck then 1 else 0
  tokenVal0 := if grantParam.tokenCheck then grantParam.tokenVal else 0
  tokenVal1 := if grantParam.tokenCheck then grantParam.tokenVal else 0

/-- `ummu_insert_new_addr`; `recordAlloc` tells whether the `calloc` of the record succeeds. -/
def ummuInsertNewAddr (recordAlloc : Bool) (segTable : RangeTable) (grantParam : DataInfo) :
    Int × RangeTable :=
  if recordAlloc then
    let grantInfo := newSegInfo grantParam
    ummuInsertSeg grantInfo segTable grantInfo.startAddr (grantInfo.grantSize - 1)
  else (-enomem, segTable)

def ummuDeleteAddr (segTable : RangeTable) (grantParam : DataInfo) : Int × RangeTable :=
  ummuDeleteSeg grantParam.dataBase (grantParam.dataSize - 1) segTable

/-- `ummu_token_update` changes the record that `ummu_find_seg` returns in place. -/
def ummuTokenUpdate (segTable : RangeTable) (grantParam : DataInfo) (op : GrantOpType) :
    Int × RangeTable :=
  let left := grantParam.dataBase
  let size := grantParam.dataSize - 1
  match (ummuFindSeg left size segTable).1 with
  | none => (-einval, segTable)
  | some _ =>
    if op = .removeToken then
      (0, segTable.modify (Range.ofSize left size) (ummuRemoveTokenval grantParam.tokenVal))
    else
      (0, segTable.modify (Range.ofSize left size) (fun data =>
        { data with
          tokenVal1 := grantParam.tokenVal, tokenCount := BitVec.ofNat 8 ummuMaxTokenNum }))

end Ummu
