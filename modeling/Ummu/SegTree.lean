import Ummu.Common

/-!
# The range table

`ummu_seg_tree.cpp`: a `std::map` from ranges to segment records, ordered by `ModCmp`. The map is
the list of its elements in the order of iteration; `lowerBound` and the insert position are what
the comparator gives on that sequence.
-/

namespace Ummu

structure Range where
  left : Nat
  right : Nat
deriving DecidableEq

/-- `Range(l, size)`, with the wrap of `uint64_t`. -/
def Range.ofSize (l size : Nat) : Range := ⟨l, (l + size) % 2 ^ 64⟩

/-- `ModCmp`. -/
def modCmp (l r : Range) : Bool := l.right < r.left

/-- `struct ummu_seg_info`. -/
@[ext] structure SegInfo where
  startAddr : Nat
  grantSize : Nat
  permission : BitVec 32
  eBit : BitVec 32
  tokenCheck : Bool
  tokenCount : BitVec 8
  tokenVal0 : BitVec 32
  tokenVal1 : BitVec 32
deriving DecidableEq

abbrev RangeTable := List (Range × SegInfo)

/-- `enum range_compare_ret`. -/
inductive RangeCompareRet where
  | rangeMatch
  | rangeOverlap
  | rangeNotExist
deriving DecidableEq

namespace RangeTable

/-- `std::map::lower_bound`: the first element that is not before `k`. -/
def lowerBound (t : RangeTable) (k : Range) : Option (Range × SegInfo) :=
  t.find? (fun e => !modCmp e.1 k)

/-- `std::map::find`. -/
def find (t : RangeTable) (k : Range) : Option (Range × SegInfo) :=
  match t.lowerBound k with
  | some e => if modCmp k e.1 then none else some e
  | none => none

/-- `std::map::erase` at the element that `find` gave. -/
def erase (t : RangeTable) (k : Range) : RangeTable := t.eraseP (fun e => !modCmp e.1 k)

/-- The record that `find` gave is changed in place. -/
def modify (t : RangeTable) (k : Range) (f : SegInfo → SegInfo) : RangeTable :=
  t.takeWhile (fun e => modCmp e.1 k) ++
    match t.dropWhile (fun e => modCmp e.1 k) with
    | e :: rest => (e.1, f e.2) :: rest
    | [] => []

/-- `std::map::insert`: before the first element after `k`, unless the element in front of that
place is not before `k`. -/
def insert (t : RangeTable) (k : Range) (data : SegInfo) : Option RangeTable :=
  let front := t.takeWhile (fun e => !modCmp k e.1)
  let back := t.dropWhile (fun e => !modCmp k e.1)
  match front.getLast? with
  | some e => if modCmp e.1 k then some (front ++ (k, data) :: back) else none
  | none => some ((k, data) :: back)

end RangeTable

def ummuInsertSeg (data : SegInfo) (segTree : RangeTable) (left size : Nat) : Int × RangeTable :=
  match segTree.insert (Range.ofSize left size) data with
  | some t => (0, t)
  | none => (-einval, segTree)

def ummuFindSeg (left size : Nat) (segTree : RangeTable) : Option SegInfo × RangeCompareRet :=
  match segTree.find (Range.ofSize left size) with
  | some e =>
    if e.1.left = left ∧ e.1.right = (left + size) % 2 ^ 64 then (some e.2, .rangeMatch)
    else (none, .rangeOverlap)
  | none => (none, .rangeNotExist)

/-- `ummu_delete_seg`; the look-up key is `Range(left, left + size)`. -/
def ummuDeleteSeg (left size : Nat) (segTree : RangeTable) : Int × RangeTable :=
  let k := Range.ofSize left ((left + size) % 2 ^ 64)
  match segTree.find k with
  | some e =>
    if e.1.left = left ∧ e.1.right = (left + size) % 2 ^ 64 then (0, segTree.erase k)
    else (-einval, segTree)
  | none => (-einval, segTree)

end Ummu
