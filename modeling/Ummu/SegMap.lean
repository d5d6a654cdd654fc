import Ummu.SegTable
import Ummu.Lib.Run
import Ummu.Lib.SearchTree

/-!
# The range table as a search tree

`std::map` keeps the ranges in a binary search tree. Its look-ups descend by `ModCmp`, which orders
disjoint ranges only, and its rebalancing may leave any shape. On the trees that the calls of
`ummu_seg_tree.cpp` reach, it is the list of its elements.
-/

namespace Ummu

open Lib

abbrev SegMap := SearchTree (Range × SegInfo)

namespace SegMap

/-- `std::map::find`: the lower bound, unless the key is before it. -/
def find (t : SegMap) (k : Range) : Option (Range × SegInfo) :=
  match t.lowerBound (fun e => !modCmp e.1 k) none with
  | some e => if modCmp k e.1 then none else some e
  | none => none

/-- `std::map::insert`. -/
def insert (t : SegMap) (k : Range) (data : SegInfo) : Option SegMap :=
  t.insertAt (fun e => modCmp k e.1) (fun e => modCmp e.1 k) (k, data) none

/-- `std::map::erase` at the element that `find` gave. -/
def erase (t : SegMap) (k : Range) : SegMap := t.eraseLower (fun e => !modCmp e.1 k)

/-- `ummu_insert_seg`. -/
def insertSeg (data : SegInfo) (segTree : SegMap) (left size : Nat) : Int × SegMap :=
  match segTree.insert (Range.ofSize left size) data with
  | some t => (0, t)
  | none => (-einval, segTree)

/-- `ummu_find_seg`. -/
def findSeg (left size : Nat) (segTree : SegMap) : Option SegInfo × RangeCompareRet :=
  match segTree.find (Range.ofSize left size) with
  | some e =>
    if e.1.left = left ∧ e.1.right = (left + size) % 2 ^ 64 then (some e.2, .rangeMatch)
    else (none, .rangeOverlap)
  | none => (none, .rangeNotExist)

/-- `ummu_delete_seg`. -/
def deleteSeg (left size : Nat) (segTree : SegMap) : Int × SegMap :=
  let k := Range.ofSize left ((left + size) % 2 ^ 64)
  match segTree.find k with
  | some e =>
    if e.1.left = left ∧ e.1.right = (left + size) % 2 ^ 64 then (0, segTree.erase k)
    else (-einval, segTree)
  | none => (-einval, segTree)

end SegMap

/-- A call that changes the range table. -/
inductive SegCall where
  | insert (data : SegInfo) (left size : Nat)
  | delete (left size : Nat)

def SegCall.run (t : SegMap) : SegCall → Int × SegMap
  | .insert data left size => t.insertSeg data left size
  | .delete left size => t.deleteSeg left size

/-- The range of the call lies below `2 ^ 48`. -/
def SegCall.InSpace : SegCall → Prop
  | .insert _ left size => left + size < 2 ^ 48
  | .delete left size => left + size < 2 ^ 48

/-- A call, after which the tree may take another shape. -/
def SegMapNext (t t' : SegMap) : Prop :=
  ∃ call : SegCall, call.InSpace ∧ t'.toList = (call.run t).2.toList

/-- The states of the range table of any calls. -/
def SegMapReach : SegMap → Prop := Reachable (fun t => t = .nil) SegMapNext

/-- Two ranges have an address in common. -/
def Range.Meets (r r' : Range) : Prop := r.left ≤ r'.right ∧ r'.left ≤ r.right

/-- The range table is an exact map of disjoint ranges. -/
structure ExactMap (t : SegMap) : Prop where
  sorted : t.toList.Pairwise (fun e f => e.1.right < f.1.left)
  ordered : ∀ e ∈ t.toList, e.1.left ≤ e.1.right
  insert_iff : ∀ data left size, left + size < 2 ^ 48 →
    ((t.insertSeg data left size).1 = 0 ↔ ∀ e ∈ t.toList, ¬e.1.Meets ⟨left, left + size⟩)
  insert_free : ∀ data left size, left + size < 2 ^ 48 → (t.insertSeg data left size).1 = 0 →
    ∀ f, f ∈ (t.insertSeg data left size).2.toList ↔
      f = (⟨left, left + size⟩, data) ∨ f ∈ t.toList
  insert_taken : ∀ data left size, (t.insertSeg data left size).1 ≠ 0 →
    (t.insertSeg data left size).2 = t
  find_match : ∀ left size, left + size < 2 ^ 64 → ∀ data,
    (t.findSeg left size = (some data, .rangeMatch) ↔ (⟨left, left + size⟩, data) ∈ t.toList)
  find_overlap : ∀ left size, left + size < 2 ^ 64 →
    (t.findSeg left size = (none, .rangeOverlap) ↔
      ∃ e ∈ t.toList, e.1.Meets ⟨left, left + size⟩ ∧ e.1 ≠ ⟨left, left + size⟩)
  find_notExist : ∀ left size, left + size < 2 ^ 64 →
    (t.findSeg left size = (none, .rangeNotExist) ↔
      ∀ e ∈ t.toList, ¬e.1.Meets ⟨left, left + size⟩)
  find_wrap : ∀ left size, left < 2 ^ 64 → size < 2 ^ 64 → 2 ^ 64 ≤ left + size →
    (t.findSeg left size).2 ≠ .rangeMatch
  delete_iff : ∀ left size, left < 2 ^ 64 → size < 2 ^ 64 →
    ((t.deleteSeg left size).1 = 0 ↔ ∃ data, (⟨left, left + size⟩, data) ∈ t.toList)
  delete_stored : ∀ left size, left < 2 ^ 64 → size < 2 ^ 64 → (t.deleteSeg left size).1 = 0 →
    ∀ f, f ∈ (t.deleteSeg left size).2.toList ↔ f ∈ t.toList ∧ f.1 ≠ ⟨left, left + size⟩
  delete_absent : ∀ left size, (t.deleteSeg left size).1 ≠ 0 → (t.deleteSeg left size).2 = t

section List

variable {t : SegMap} {k : Range} {left size : Nat} {data : SegInfo}

/-- On disjoint ranges in order, every key splits the order at its place. -/
lemma Apart.upward_lower {l : RangeTable} (h : Apart l) (k : Range) :
    SearchTree.Upward (fun e => !modCmp e.1 k) l := by
  refine h.sorted.imp_of_mem (fun {a b} ha hb hab hk => ?_)
  have hle := h.le b hb
  simp only [modCmp, Bool.not_eq_true', decide_eq_false_iff_not, not_lt] at hk ⊢
  omega

lemma Apart.upward_upper {l : RangeTable} (h : Apart l) (k : Range) :
    SearchTree.Upward (fun e => modCmp k e.1) l := by
  refine h.sorted.imp_of_mem (fun {a b} ha hb hab hk => ?_)
  have hle := h.le a ha
  simp only [modCmp, decide_eq_true_eq] at hk ⊢
  omega

lemma find_toList (h : Apart t.toList) (k : Range) : t.find k = RangeTable.find t.toList k := by
  have hlower : t.lowerBound (fun e => !modCmp e.1 k) none = RangeTable.lowerBound t.toList k := by
    rw [SearchTree.lowerBound_eq (h.upward_lower k), Option.or_none, RangeTable.lowerBound]
  unfold SegMap.find RangeTable.find
  cases hbound : RangeTable.lowerBound t.toList k with
  | none => rw [hlower, hbound]
  | some e => rw [hlower, hbound]

lemma insert_toList (h : Apart t.toList) (k : Range) (data : SegInfo) :
    (t.insert k data).map SearchTree.toList = RangeTable.insert t.toList k data := by
  rw [SegMap.insert, SearchTree.insertAt_eq (h.upward_upper k), Option.or_none, RangeTable.insert]
  cases hlast : (t.toList.takeWhile (fun e => !modCmp k e.1)).getLast? with
  | none =>
    rw [List.getLast?_eq_none_iff] at hlast
    simp only [hlast]
    rfl
  | some e => rfl

lemma erase_toList (h : Apart t.toList) (k : Range) :
    (t.erase k).toList = RangeTable.erase t.toList k := by
  rw [SegMap.erase, SearchTree.eraseLower_eq (h.upward_lower k), RangeTable.erase]

/-- The calls do on the tree what they do on the list of its elements. -/
theorem insertSeg_toList (h : Apart t.toList) :
    (t.insertSeg data left size).1 = (ummuInsertSeg data t.toList left size).1 ∧
      (t.insertSeg data left size).2.toList = (ummuInsertSeg data t.toList left size).2 := by
  rw [ummuInsertSeg, ← insert_toList h, SegMap.insertSeg]
  cases t.insert (Range.ofSize left size) data with
  | none => exact ⟨rfl, rfl⟩
  | some t' => exact ⟨rfl, rfl⟩

theorem findSeg_toList (h : Apart t.toList) :
    t.findSeg left size = ummuFindSeg left size t.toList := by
  unfold SegMap.findSeg ummuFindSeg
  cases hfind : RangeTable.find t.toList (Range.ofSize left size) with
  | none => rw [find_toList h, hfind]
  | some e => rw [find_toList h, hfind]

theorem deleteSeg_toList (h : Apart t.toList) :
    (t.deleteSeg left size).1 = (ummuDeleteSeg left size t.toList).1 ∧
      (t.deleteSeg left size).2.toList = (ummuDeleteSeg left size t.toList).2 := by
  rw [ummuDeleteSeg, SegMap.deleteSeg]
  simp only [find_toList h]
  cases RangeTable.find t.toList (Range.ofSize left ((left + size) % 2 ^ 64)) with
  | none => exact ⟨rfl, rfl⟩
  | some e =>
    simp only
    by_cases hc : e.1.left = left ∧ e.1.right = (left + size) % 2 ^ 64
    · rw [if_pos hc, if_pos hc]
      exact ⟨rfl, erase_toList h _⟩
    · rw [if_neg hc, if_neg hc]
      exact ⟨rfl, rfl⟩

end List

section Exact

variable {t : SegMap} {l : RangeTable} {e : Range × SegInfo} {data : SegInfo} {left size : Nat}

lemma Range.not_meets {r r' : Range} :
    ¬r.Meets r' ↔ r.right < r'.left ∨ r'.right < r.left := by
  rw [Range.Meets]
  omega

lemma Range.ofSize_eq (h : left + size < 2 ^ 64) : Range.ofSize left size = ⟨left, left + size⟩ := by
  rw [Range.ofSize, Nat.mod_eq_of_lt h]

/-- `ummu_insert_seg` on a free range. -/
lemma insertSeg_free (h : Apart l) (hlt : left + size < 2 ^ 48)
    (hfree : ∀ e ∈ l, ¬e.1.Meets ⟨left, left + size⟩) :
    ∃ l', ummuInsertSeg data l left size = (0, l') ∧ Apart l' ∧
      ∀ f, f ∈ l' ↔ f = (⟨left, left + size⟩, data) ∨ f ∈ l := by
  have hk := @Range.ofSize_eq left size (by omega)
  obtain ⟨l', hins, hsorted, hmem⟩ := @Apart.insert l ⟨left, left + size⟩ data h
    (fun f hf => Range.not_meets.mp (hfree f hf))
  refine ⟨l', by rw [ummuInsertSeg, hk, hins], ⟨hsorted, fun f hf => ?_, fun f hf => ?_⟩, hmem⟩
  · rcases (hmem f).mp hf with rfl | hf
    · exact Nat.le_add_right left size
    · exact h.le f hf
  · rcases (hmem f).mp hf with rfl | hf
    · exact hlt
    · exact h.lt f hf

/-- `ummu_insert_seg` on a range that meets a stored one. -/
lemma insertSeg_taken (h : Apart l) (hlt : left + size < 2 ^ 48) (he : e ∈ l)
    (hmeets : e.1.Meets ⟨left, left + size⟩) :
    ummuInsertSeg data l left size = (-einval, l) := by
  have hk := @Range.ofSize_eq left size (by omega)
  have hins := @Apart.insert_taken l e ⟨left, left + size⟩ data h he hmeets.2 hmeets.1
  rw [ummuInsertSeg, hk, hins]

/-- What `ummu_find_seg` answers for a range that does not wrap. -/
lemma findSeg_cases (h : Apart l) (hlt : left + size < 2 ^ 64) :
    (∃ data, ummuFindSeg left size l = (some data, .rangeMatch) ∧
      (⟨left, left + size⟩, data) ∈ l) ∨
    (ummuFindSeg left size l = (none, .rangeOverlap) ∧
      ∃ e ∈ l, e.1.Meets ⟨left, left + size⟩ ∧ e.1 ≠ ⟨left, left + size⟩) ∨
    (ummuFindSeg left size l = (none, .rangeNotExist) ∧
      ∀ e ∈ l, ¬e.1.Meets ⟨left, left + size⟩) := by
  have hk := Range.ofSize_eq hlt
  rw [ummuFindSeg, hk, Nat.mod_eq_of_lt hlt]
  cases hfind : RangeTable.find l ⟨left, left + size⟩ with
  | none =>
    exact Or.inr (Or.inr ⟨rfl, fun e he => Range.not_meets.mpr (find_none h hfind he)⟩)
  | some e =>
    obtain ⟨he, h1, h2⟩ := mem_of_find hfind
    simp only
    by_cases hc : e.1.left = left ∧ e.1.right = left + size
    · rw [if_pos hc]
      have hr : e.1 = ⟨left, left + size⟩ := by
        rw [← hc.2, ← hc.1]
      refine Or.inl ⟨e.2, rfl, ?_⟩
      rwa [← hr]
    · rw [if_neg hc]
      refine Or.inr (Or.inl ⟨rfl, e, he, ⟨h2, h1⟩, fun hr => hc ?_⟩)
      rw [hr]
      exact ⟨rfl, rfl⟩

/-- A stored range and one that meets it are the same. -/
lemma Apart.eq_of_meets {r : Range} (h : Apart l) (he : e ∈ l) (hr : (r, data) ∈ l)
    (hm : e.1.Meets r) : e = (r, data) := h.unique hr he hm.2 hm.1

/-- `ummu_delete_seg` on a stored range. -/
lemma deleteSeg_stored (h : Apart l) (hmem : (⟨left, left + size⟩, data) ∈ l) :
    ∃ l', ummuDeleteSeg left size l = (0, l') ∧ Apart l' ∧
      ∀ f, f ∈ l' ↔ f ∈ l ∧ f.1 ≠ ⟨left, left + size⟩ := by
  have hlt := h.lt _ hmem
  simp only at hlt
  have hmod : (left + size) % 2 ^ 64 = left + size := Nat.mod_eq_of_lt (by omega)
  have hfind := @Apart.find_wide l _ left size h hmem rfl rfl
  obtain ⟨hsub, herase⟩ := @Apart.erase l _ (Range.ofSize left (left + size)) h hmem rfl
  rw [hmod] at hfind
  refine ⟨l.erase (Range.ofSize left (left + size)), ?_, ?_, fun f => ?_⟩
  · rw [ummuDeleteSeg]
    simp only [hmod, hfind]
    rw [if_pos ⟨trivial, trivial⟩]
  · exact ⟨h.sorted.sublist hsub, fun f hf => h.le f (hsub.subset hf),
      fun f hf => h.lt f (hsub.subset hf)⟩
  · rw [herase]
    refine and_congr_right (fun hf => not_congr ⟨?_, fun hr => ?_⟩)
    · rintro rfl
      rfl
    · exact h.eq_of_meets hf hmem ⟨by rw [hr]; exact Nat.le_add_right .., by
        rw [hr]; exact Nat.le_add_right ..⟩

/-- `ummu_delete_seg` removes nothing but the range that it names. -/
lemma deleteSeg_absent (h : Apart l) (hleft : left < 2 ^ 64) (hsize : size < 2 ^ 64)
    (hne : ∀ data, (⟨left, left + size⟩, data) ∉ l) :
    ummuDeleteSeg left size l = (-einval, l) := by
  rw [ummuDeleteSeg]
  cases hfind : RangeTable.find l (Range.ofSize left ((left + size) % 2 ^ 64)) with
  | none => rfl
  | some e =>
    have he := (mem_of_find hfind).1
    have hle := h.le e he
    simp only
    rw [if_neg]
    rintro ⟨h1, h2⟩
    have hr : e.1 = ⟨left, left + size⟩ := by
      rw [← h1, show e.1.left + size = e.1.right by omega]
    exact hne e.2 (hr ▸ he)

/-- A call keeps the ranges disjoint and in order. -/
theorem segCall_apart (h : Apart t.toList) {call : SegCall} (hspace : call.InSpace) :
    Apart (call.run t).2.toList := by
  cases call with
  | insert data left size =>
    rw [SegCall.run, (insertSeg_toList h).2]
    by_cases hfree : ∀ e ∈ t.toList, ¬e.1.Meets ⟨left, left + size⟩
    · obtain ⟨l', hins, hl', _⟩ := @insertSeg_free t.toList data left size h hspace hfree
      rw [hins]
      exact hl'
    · push Not at hfree
      obtain ⟨e, he, hmeets⟩ := hfree
      rw [insertSeg_taken h hspace he hmeets]
      exact h
  | delete left size =>
    have hlt : left + size < 2 ^ 48 := hspace
    rw [SegCall.run, (deleteSeg_toList h).2]
    by_cases hmem : ∃ data, (⟨left, left + size⟩, data) ∈ t.toList
    · obtain ⟨data, hmem⟩ := hmem
      obtain ⟨l', hdel, hl', _⟩ := deleteSeg_stored h hmem
      rw [hdel]
      exact hl'
    · push Not at hmem
      rw [deleteSeg_absent h (by omega) (by omega) hmem]
      exact h

/-- What `ummu_insert_seg` does on the tree. -/
lemma insertSeg_exact (h : Apart t.toList) (data : SegInfo) (hlt : left + size < 2 ^ 48) :
    ((∀ e ∈ t.toList, ¬e.1.Meets ⟨left, left + size⟩) ∧ (t.insertSeg data left size).1 = 0 ∧
      ∀ f, f ∈ (t.insertSeg data left size).2.toList ↔
        f = (⟨left, left + size⟩, data) ∨ f ∈ t.toList) ∨
    ((∃ e ∈ t.toList, e.1.Meets ⟨left, left + size⟩) ∧
      (t.insertSeg data left size).1 = -einval) := by
  rw [(insertSeg_toList h).1, (insertSeg_toList h).2]
  by_cases hfree : ∀ e ∈ t.toList, ¬e.1.Meets ⟨left, left + size⟩
  · obtain ⟨l', hins, _, hmem⟩ := @insertSeg_free t.toList data left size h hlt hfree
    rw [hins]
    exact Or.inl ⟨hfree, rfl, hmem⟩
  · push Not at hfree
    obtain ⟨e, he, hmeets⟩ := hfree
    rw [insertSeg_taken h hlt he hmeets]
    exact Or.inr ⟨⟨e, he, hmeets⟩, rfl⟩

/-- What `ummu_delete_seg` does on the tree. -/
lemma deleteSeg_exact (h : Apart t.toList) (hleft : left < 2 ^ 64) (hsize : size < 2 ^ 64) :
    ((∃ data, (⟨left, left + size⟩, data) ∈ t.toList) ∧ (t.deleteSeg left size).1 = 0 ∧
      ∀ f, f ∈ (t.deleteSeg left size).2.toList ↔ f ∈ t.toList ∧ f.1 ≠ ⟨left, left + size⟩) ∨
    ((¬∃ data, (⟨left, left + size⟩, data) ∈ t.toList) ∧
      (t.deleteSeg left size).1 = -einval) := by
  rw [(deleteSeg_toList h).1, (deleteSeg_toList h).2]
  by_cases hmem : ∃ data, (⟨left, left + size⟩, data) ∈ t.toList
  · obtain ⟨data, hdata⟩ := hmem
    obtain ⟨l', hdel, _, hl'⟩ := deleteSeg_stored h hdata
    rw [hdel]
    exact Or.inl ⟨⟨data, hdata⟩, rfl, hl'⟩
  · rw [deleteSeg_absent h hleft hsize (fun data hdata => hmem ⟨data, hdata⟩)]
    exact Or.inr ⟨hmem, rfl⟩

/-- A failed insertion leaves the tree as it is. -/
lemma insertSeg_failed (hne : (t.insertSeg data left size).1 ≠ 0) :
    (t.insertSeg data left size).2 = t := by
  rw [SegMap.insertSeg] at hne ⊢
  cases hins : t.insert (Range.ofSize left size) data with
  | none => rfl
  | some t' =>
    rw [hins] at hne
    exact (hne rfl).elim

/-- A failed deletion leaves the tree as it is. -/
lemma deleteSeg_failed (hne : (t.deleteSeg left size).1 ≠ 0) : (t.deleteSeg left size).2 = t := by
  rw [SegMap.deleteSeg] at hne ⊢
  cases hfind : t.find (Range.ofSize left ((left + size) % 2 ^ 64)) with
  | none => rfl
  | some e =>
    rw [hfind] at hne
    simp only at hne ⊢
    by_cases hc : e.1.left = left ∧ e.1.right = (left + size) % 2 ^ 64
    · rw [if_pos hc] at hne
      exact (hne rfl).elim
    · rw [if_neg hc]

/-- A range that wraps ends before its start, so that no stored range is equal to it. -/
lemma findSeg_wrap (h : Apart l) (hleft : left < 2 ^ 64) (hsize : size < 2 ^ 64)
    (hwrap : 2 ^ 64 ≤ left + size) : (ummuFindSeg left size l).2 ≠ .rangeMatch := by
  rw [ummuFindSeg]
  cases hfind : RangeTable.find l (Range.ofSize left size) with
  | none => exact fun hc => RangeCompareRet.noConfusion hc
  | some e =>
    have hle := h.le e (mem_of_find hfind).1
    simp only
    rw [if_neg (by omega)]
    exact fun hc => RangeCompareRet.noConfusion hc

/-- On disjoint ranges in order the calls answer exactly. -/
theorem Apart.exactMap (h : Apart t.toList) : ExactMap t := by
  have heinval : (-einval : Int) ≠ 0 := by decide
  have hmatch : ∀ left size, left + size < 2 ^ 64 → ∀ data,
      (ummuFindSeg left size t.toList = (some data, .rangeMatch) ↔
        (⟨left, left + size⟩, data) ∈ t.toList) := by
    intro left size hlt data
    constructor
    · intro hfind
      obtain ⟨e, he, rfl, hk⟩ := findSeg_match hfind
      rwa [← Range.ofSize_eq hlt, ← hk]
    · exact fun hmem => findSeg_of_mem h hmem (Range.ofSize_eq hlt).symm
  constructor
  case sorted => exact h.sorted
  case ordered => exact h.le
  case insert_iff =>
    intro data left size hlt
    rcases insertSeg_exact h data hlt with ⟨hfree, hret, _⟩ | ⟨⟨e, he, hm⟩, hret⟩
    · exact ⟨fun _ => hfree, fun _ => hret⟩
    · exact ⟨fun h0 => (heinval (hret.symm.trans h0)).elim, fun hfree => (hfree e he hm).elim⟩
  case insert_free =>
    intro data left size hlt h0
    rcases insertSeg_exact h data hlt with ⟨_, _, hmem⟩ | ⟨_, hret⟩
    · exact hmem
    · exact (heinval (hret.symm.trans h0)).elim
  case insert_taken => exact fun data left size hne => insertSeg_failed hne
  case find_match =>
    intro left size hlt data
    rw [findSeg_toList h]
    exact hmatch left size hlt data
  case find_overlap =>
    intro left size hlt
    rw [findSeg_toList h]
    rcases findSeg_cases h hlt with ⟨data, hfind, hmem⟩ | ⟨hfind, hex⟩ | ⟨hfind, hno⟩
    · rw [hfind]
      constructor
      · exact fun hc => nomatch hc
      · rintro ⟨e, he, hm, hne⟩
        exact (hne (congrArg Prod.fst (h.eq_of_meets he hmem hm))).elim
    · exact ⟨fun _ => hex, fun _ => hfind⟩
    · rw [hfind]
      constructor
      · exact fun hc => nomatch hc
      · rintro ⟨e, he, hm, _⟩
        exact (hno e he hm).elim
  case find_notExist =>
    intro left size hlt
    rw [findSeg_toList h]
    rcases findSeg_cases h hlt with ⟨data, hfind, hmem⟩ | ⟨hfind, e, he, hm, _⟩ | ⟨hfind, hno⟩
    · rw [hfind]
      constructor
      · exact fun hc => nomatch hc
      · exact fun hno => (hno _ hmem ⟨Nat.le_add_right .., Nat.le_add_right ..⟩).elim
    · rw [hfind]
      constructor
      · exact fun hc => nomatch hc
      · exact fun hno => (hno e he hm).elim
    · exact ⟨fun _ => hno, fun _ => hfind⟩
  case find_wrap =>
    intro left size hleft hsize hwrap
    rw [findSeg_toList h]
    exact findSeg_wrap h hleft hsize hwrap
  case delete_iff =>
    intro left size hleft hsize
    rcases deleteSeg_exact h hleft hsize with ⟨hmem, hret, _⟩ | ⟨hno, hret⟩
    · exact ⟨fun _ => hmem, fun _ => hret⟩
    · exact ⟨fun h0 => (heinval (hret.symm.trans h0)).elim, fun hmem => (hno hmem).elim⟩
  case delete_stored =>
    intro left size hleft hsize h0
    rcases deleteSeg_exact h hleft hsize with ⟨_, _, hmem⟩ | ⟨_, hret⟩
    · exact hmem
    · exact (heinval (hret.symm.trans h0)).elim
  case delete_absent => exact fun left size hne => deleteSeg_failed hne

/-- In every state that calls reach from an empty table, whatever the shapes of its tree, the range
table is an exact map of disjoint ranges. -/
theorem segMap_exact (h : SegMapReach t) : ExactMap t := by
  have hapart : Apart t.toList := by
    refine Reachable.invariant (I := fun t => Apart t.toList) h ?_ ?_
    · rintro t rfl
      exact ⟨List.Pairwise.nil, fun e he => absurd he List.not_mem_nil,
        fun e he => absurd he List.not_mem_nil⟩
    · rintro t t' ht ⟨call, hspace, hshape⟩
      rw [hshape]
      exact segCall_apart ht hspace
  exact hapart.exactMap

/-- The record of one page. -/
def pageInfo (addr : Nat) : SegInfo := ⟨addr, 0x1000, 3, 0, false, 0, 0, 0⟩

/-- Two ranges, the second at the root. -/
def twoRanges : SegMap :=
  .node (.node .nil (⟨0x1000, 0x1fff⟩, pageInfo 0x1000) .nil) (⟨0x3000, 0x3fff⟩, pageInfo 0x3000)
    .nil

theorem segMap_exact_two : ExactMap twoRanges := by
  have hfirst : SegMapReach (.node .nil (⟨0x1000, 0x1fff⟩, pageInfo 0x1000) .nil) :=
    .step (.start rfl)
      ⟨.insert (pageInfo 0x1000) 0x1000 0xfff, (by decide : 0x1000 + 0xfff < 2 ^ 48), rfl⟩
  exact segMap_exact (.step hfirst
    ⟨.insert (pageInfo 0x3000) 0x3000 0xfff, (by decide : 0x3000 + 0xfff < 2 ^ 48), rfl⟩)

end Exact

end Ummu
