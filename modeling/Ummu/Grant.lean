import Ummu.Table
import Ummu.SegMng

/-!
# Grant and ungrant

`ummu_grant`, `ummu_ungrant` and `ummu_ungrant_by_token` from the look-up of the tid on. A call
changes the `MaptInfo` of its tid and hands `ummu_plbi_va_cmd` the ranges to invalidate.
-/

namespace Ummu

/-- `enum ummu_mapt_mode` without its end mark. -/
inductive MaptMode where
  | table
  | entry
deriving DecidableEq

/-- `block_base` of `struct ummu_mapt_info` in the mode of the tid. -/
inductive BlockBase where
  | entryBlock (node : EntryNode)
  | tableCtx (ctx : TableCtx) (grantedAddrMng : Option RangeTable)

structure MaptInfo where
  tid : BitVec 32
  valid : Bool
  doublePlbi : Bool
  kcmdPlbi : Bool
  blockBase : BlockBase

def MaptInfo.mode (info : MaptInfo) : MaptMode :=
  match info.blockBase with
  | .entryBlock _ => .entry
  | .tableCtx _ _ => .table

/-- `struct ummu_token_info`. -/
structure TokenInfo where
  input : BitVec 32
  tokenVal : BitVec 32

/-- `struct ummu_seg_attr`; a null token is `none`. -/
structure SegAttr where
  token : Option TokenInfo
  eBit : BitVec 32

/-- The arguments of `ummu_grant` after the tid. -/
structure GrantArgs where
  data : BitVec 64
  dataSize : BitVec 64
  perm : BitVec 32
  segAttr : Option SegAttr

/-- What the system gives to one grant: the mappings, the record allocation, a random number,
and the value that the uninitialised `lvl` happens to have. -/
structure GrantEnv where
  maps : List MapOutcome
  recordAlloc : Bool
  random : Option (BitVec 32)
  lvl : Nat

/-- The arguments that a call hands to `ummu_plbi_va_cmd`. -/
structure PlbiRange where
  dataBase : Nat
  dataSize : Nat
deriving DecidableEq

/-- The outcome of a call: its code, the new state of the tid, the invalidations it asked for and
what its table operation did. -/
structure CallResult where
  ret : Int
  info : MaptInfo
  plbi : List PlbiRange
  trace : List Event

def CallResult.failed (info : MaptInfo) (ret : Int) : CallResult := ⟨ret, info, [], []⟩

def maptPermR : BitVec 32 := 2
def maptPermW : BitVec 32 := 1
def maptPermRW : BitVec 32 := 3
def maptPermAtomicR : BitVec 32 := 6
def maptPermAtomicW : BitVec 32 := 5
def maptPermAtomicRW : BitVec 32 := 7

def ummuCheckPerm (perm : BitVec 32) : Bool :=
  perm = maptPermR || perm = maptPermW || perm = maptPermRW || perm = maptPermAtomicR ||
    perm = maptPermAtomicW || perm = maptPermAtomicRW

/-- `ummu_check_ebit`; `UMMU_EBIT_END` is 2. -/
def ummuCheckEbit (eBit : BitVec 32) : Bool := decide (eBit < 2)

def alignVpageShiftCheck (val : BitVec 64) : Bool :=
  val &&& ~~~(BitVec.ofNat 64 (2 ^ maptVpageShift) - 1) = val

/-- `ummu_check_data`. -/
def ummuCheckData (data dataSize : BitVec 64) (perm eBit : BitVec 32) (mode : MaptMode) : Bool :=
  if dataSize = 0 then false
  else if data >>> maxAddressBits ≠ 0 ∨ (dataSize - 1) >>> maxAddressBits ≠ 0 ∨
      (data + dataSize - 1) >>> maxAddressBits ≠ 0 then false
  else if mode = .table ∧ alignVpageShiftCheck data = false then false
  else ummuCheckPerm perm && ummuCheckEbit eBit

/-- `ummu_get_token`; `random` is what `ummu_gen_random` gives. -/
def ummuGetToken (random : Option (BitVec 32)) (token : TokenInfo) : Option (BitVec 32) :=
  if token.input = 0 then some token.tokenVal
  else if token.input = 1 then random
  else none

/-- `ummu_perm_data_preproc` after the argument checks. -/
def ummuPermDataPreproc (a : GrantArgs) (seg : SegAttr) (random : Option (BitVec 32)) :
    Option DataInfo :=
  let value :=
    match seg.token with
    | some token => ummuGetToken random token
    | none => some 0
  value.map (fun tokenVal =>
    { dataSize := a.dataSize.toNat
      perm := a.perm
      tokenVal := tokenVal
      dataBase := a.data.toNat
      dataLimit := (a.data + a.dataSize - 1).toNat
      tokenCheck := seg.token.isSome
      bytoken := false
      eBit := seg.eBit
      op := .opEnd })

def entryAddrLow (addr : Nat) : BitVec 32 := BitVec.ofNat 32 (addr &&& genmaskUll 31 0)
def entryAddrHigh (addr : Nat) : BitVec 16 := BitVec.ofNat 16 ((addr &&& genmaskUll 47 32) >>> 32)

def ummuEntryFillNode (node : EntryNode) (d : DataInfo) : EntryNode :=
  let node := { node with
    permission := d.perm.setWidth 6
    baseLow := entryAddrLow d.dataBase
    baseHigh := entryAddrHigh d.dataBase
    limitLow := entryAddrLow d.dataLimit
    limitHigh := entryAddrHigh d.dataLimit
    tokenCheck := d.tokenCheck
    eBit := d.eBit.getLsbD 0 }
  let node :=
    if d.tokenCheck then { node with tokenVal0 := d.tokenVal, tokenVal1 := d.tokenVal, nonce := 1 }
    else node
  { node with valid := true }

/-- `ummu_update_token` on the entry node. -/
def ummuEntryUpdateToken (node : EntryNode) (d : DataInfo) : Int × EntryNode :=
  match d.op with
  | .addToken =>
    if node.valid = true ∧ node.nonce = 1 then
      (0, { node with tokenVal1 := d.tokenVal, nonce := BitVec.ofNat 2 ummuMaxTokenNum })
    else (-einval, node)
  | .removeToken =>
    if node.tokenVal0 = d.tokenVal then
      (0, { node with tokenVal0 := node.tokenVal1, nonce := 1 })
    else if node.tokenVal1 = d.tokenVal then
      (0, { node with tokenVal1 := node.tokenVal0, nonce := 1 })
    else (-einval, node)
  | _ => (-einval, node)

def ummuEntryOp (node : EntryNode) (d : DataInfo) : Int × EntryNode :=
  match d.op with
  | .grant => (0, ummuEntryFillNode node d)
  | .addToken | .removeToken => ummuEntryUpdateToken node d
  | .ungrant => (0, EntryNode.zero)
  | .opEnd => (-einval, node)

/-- `ummu_update_info` in table mode. -/
def ummuUpdateInfo (recordAlloc : Bool) (grantedAddrMng : Option RangeTable) (d : DataInfo) :
    Int × Option RangeTable :=
  match grantedAddrMng with
  | none => (-einval, none)
  | some t =>
    match d.op with
    | .grant => (ummuInsertNewAddr recordAlloc t d).map id some
    | .addToken | .removeToken => (ummuTokenUpdate t d d.op).map id some
    | .ungrant => (ummuDeleteAddr t d).map id some
    | .opEnd => (-einval, some t)

/-- The machine on which a table operation of the tid starts. -/
def startMachine (ctx : TableCtx) (maps : List MapOutcome) (lvl : Nat) : Machine :=
  ⟨ctx, TableNode.zero, lvl, 0, maps, []⟩

/-- The table operation of a call and, if it succeeds, the update of the range table. -/
def tableCall (recordAlloc : Bool) (ctx : TableCtx) (t : Option RangeTable) (d : DataInfo)
    (maps : List MapOutcome) (lvl : Nat) : Int × Int × Machine × Option RangeTable :=
  let r := ummuTableOp d (startMachine ctx maps lvl)
  if r.1 = 0 then
    let u := ummuUpdateInfo recordAlloc t d
    (r.1, u.1, r.2, u.2)
  else (r.1, r.1, r.2, t)

/-- `ummu_grant` after the look-up of the tid. -/
def ummuGrant (info : MaptInfo) (a : GrantArgs) (env : GrantEnv) : CallResult :=
  match a.segAttr with
  | none => .failed info (-einval)
  | some seg =>
    if ummuCheckData a.data a.dataSize a.perm seg.eBit info.mode = false then
      .failed info (-einval)
    else
      match ummuPermDataPreproc a seg env.random with
      | none => .failed info (-einval)
      | some d =>
        let plbi (op : GrantOpType) (ret : Int) : List PlbiRange :=
          if op = .addToken ∨ ret ≠ 0 then [⟨d.dataBase, d.dataSize⟩] else []
        match info.blockBase with
        | .entryBlock node =>
          let op := ummuEntryParamCheck node d
          if op = .opEnd then .failed info (-einval)
          else
            let r := ummuEntryOp node { d with op := op }
            ⟨r.1, { info with blockBase := .entryBlock r.2 }, plbi op r.1, []⟩
        | .tableCtx ctx t =>
          let op := ummuTableGrantCheck t d
          if op = .opEnd then .failed info (-einval)
          else
            let (opRet, ret, m, t') :=
              tableCall env.recordAlloc ctx t { d with op := op } env.maps env.lvl
            ⟨ret, { info with blockBase := .tableCtx m.ctx t' }, plbi op opRet, m.trace⟩

/-- `x & ~mask` on 64-bit values. -/
def clearMask (x mask : Nat) : Nat := x - (x &&& mask)

/-- The range that `ummu_ungrant_data` invalidates after `UMMU_UNGRANT`. -/
def ungrantRange (dataBase dataSize lvl : Nat) : PlbiRange :=
  let lvl := if lvl ≠ 0 then lvl - 1 else 0
  let mask := getLevelRangeMask lvl
  let size := (dataSize + (dataBase &&& mask)) % 2 ^ 64
  ⟨clearMask dataBase mask, clearMask ((size + mask) % 2 ^ 64) mask⟩

def ungrantDataInfo (data size : BitVec 64) (tokenval : BitVec 32) (bytoken : Bool) : DataInfo where
  dataSize := size.toNat
  perm := 0
  tokenVal := tokenval
  dataBase := data.toNat
  dataLimit := (data + size - 1).toNat
  tokenCheck := false
  bytoken := bytoken
  eBit := 0
  op := .opEnd

/-- `ummu_ungrant_data` after the look-up of the tid. -/
def ummuUngrantData (info : MaptInfo) (data size : BitVec 64) (tokenval : BitVec 32)
    (bytoken : Bool) : CallResult :=
  if size = 0 then .failed info (-enomem)
  else
    let d := ungrantDataInfo data size tokenval bytoken
    match info.blockBase with
    | .entryBlock node =>
      let op := ummuEntryUngrantParamCheck node d
      if op = .opEnd then .failed info (-einval)
      else
        let r := ummuEntryOp node { d with op := op }
        let range :=
          if op = .ungrant then ungrantRange d.dataBase d.dataSize maxLevelIndex
          else ⟨d.dataBase, d.dataSize⟩
        ⟨r.1, { info with blockBase := .entryBlock r.2 }, [range], []⟩
    | .tableCtx ctx t =>
      if alignVpageShiftCheck data = false then .failed info (-einval)
      else
        let op := ummuTableUngrantCheck t d
        if op = .opEnd then .failed info (-einval)
        else
          let (_, ret, m, t') := tableCall true ctx t { d with op := op } [] maxLevelIndex
          let range :=
            if op = .ungrant then ungrantRange d.dataBase d.dataSize m.lvl
            else ⟨d.dataBase, d.dataSize⟩
          ⟨ret, { info with blockBase := .tableCtx m.ctx t' }, [range], m.trace⟩

def ummuUngrant (info : MaptInfo) (data size : BitVec 64) : CallResult :=
  ummuUngrantData info data size 0 false

def ummuUngrantByToken (info : MaptInfo) (data size : BitVec 64) (tokenVal : BitVec 32) :
    CallResult :=
  ummuUngrantData info data size tokenVal true

end Ummu
