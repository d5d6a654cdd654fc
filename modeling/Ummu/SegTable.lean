import Ummu.SegMng
import Ummu.Lib.RadixFill

/-!
# The range table as an ownership map

The ranges of the table are disjoint and in order, so that each address has at most one owner. The
operations of `ummu_seg_tree.cpp` change the owners of one range.
-/

namespace Ummu

open Lib

/-- The live tokens of a record: none without a token check, one in both slots, or two. -/
def SegInfo.TokensOk (s : SegInfo) : Prop :=
  (s.tokenCheck = false ∧ s.tokenCount = 0) ∨
  (s.tokenCheck = true ∧ s.tokenCount = 1 ∧ s.tokenVal0 = s.tokenVal1) ∨
  (s.tokenCheck = true ∧ s.tokenCount = 2)

/-- A record of a page-aligned segment below the end of the address space, under its range. -/
structure SegOk (e : Range × SegInfo) : Prop where
  left : e.1.left = e.2.startAddr
  right : e.1.right + 1 = e.2.startAddr + e.2.grantSize
  le : e.1.left ≤ e.1.right
  lt : e.1.right < 2 ^ 48
  page : 4096 ∣ e.1.left
  permission : e.2.permission.toNat < 2 ^ 6
  eBit : e.2.eBit.toNat < 2
  tokens : e.2.TokensOk

/-- The invariant of the range table. -/
structure Segs (t : RangeTable) : Prop where
  sorted : t.Pairwise (fun e f => e.1.right < f.1.left)
  ok : ∀ e ∈ t, SegOk e

/-- Disjoint ranges in order, below the end of the address space. -/
structure Apart (t : RangeTable) : Prop where
  sorted : t.Pairwise (fun e f => e.1.right < f.1.left)
  le : ∀ e ∈ t, e.1.left ≤ e.1.right
  lt : ∀ e ∈ t, e.1.right < 2 ^ 48

/-- The record of the segment in which an address lies. -/
def ownerOf (t : RangeTable) (x : Nat) : Option SegInfo :=
  (t.find? (fun e => decide (e.1.left ≤ x ∧ x ≤ e.1.right))).map Prod.snd

section Owner

variable {t t' : RangeTable} {e f : Range × SegInfo} {x : Nat} {s : SegInfo}

lemma Segs.apart (h : Segs t) : Apart t :=
  ⟨h.sorted, fun e he => (h.ok e he).le, fun e he => (h.ok e he).lt⟩

lemma Apart.split (h : Apart t) (he : e ∈ t) :
    ∃ l r, t = l ++ e :: r ∧ (∀ f ∈ l, f.1.right < e.1.left) ∧ ∀ f ∈ r, e.1.right < f.1.left := by
  obtain ⟨l, r, rfl⟩ := List.append_of_mem he
  obtain ⟨_, h2, h3⟩ := List.pairwise_append.mp h.sorted
  exact ⟨l, r, rfl, fun f hf => h3 f hf e (List.mem_cons_self ..),
    fun f hf => (List.pairwise_cons.mp h2).1 f hf⟩

/-- Two records whose ranges meet are the same. -/
lemma Apart.unique (h : Apart t) (he : e ∈ t) (hf : f ∈ t) (h1 : e.1.left ≤ f.1.right)
    (h2 : f.1.left ≤ e.1.right) : f = e := by
  obtain ⟨l, r, rfl, hl, hr⟩ := h.split he
  rcases List.mem_append.mp hf with hf | hf
  · have := hl f hf
    omega
  · rcases List.mem_cons.mp hf with rfl | hf
    · rfl
    · have := hr f hf
      omega

lemma ownerOf_some (h : Segs t) :
    ownerOf t x = some s ↔ ∃ e ∈ t, e.2 = s ∧ e.1.left ≤ x ∧ x ≤ e.1.right := by
  rw [ownerOf, Option.map_eq_some_iff]
  constructor
  · rintro ⟨e, hfind, rfl⟩
    have hx := List.find?_some hfind
    exact ⟨e, List.mem_of_find?_eq_some hfind, rfl, by simpa using hx⟩
  · rintro ⟨e, he, rfl, hx⟩
    cases hfind : t.find? (fun e => decide (e.1.left ≤ x ∧ x ≤ e.1.right)) with
    | none =>
      have := List.find?_eq_none.mp hfind e he
      simp [hx] at this
    | some f =>
      have hf := List.find?_some hfind
      simp only [decide_eq_true_eq] at hf
      have := h.apart.unique he (List.mem_of_find?_eq_some hfind) (by omega) (by omega)
      exact ⟨f, rfl, by rw [this]⟩

/-- A record owns its range and nothing else. -/
lemma ownerOf_seg (h : Segs t) (he : e ∈ t) :
    ownerOf t x = some e.2 ↔ e.1.left ≤ x ∧ x ≤ e.1.right := by
  rw [ownerOf_some h]
  refine ⟨?_, fun hx => ⟨e, he, rfl, hx⟩⟩
  rintro ⟨f, hf, hfe, hx⟩
  have h1 := (h.ok f hf).left
  have h2 := (h.ok f hf).right
  rw [hfe] at h1 h2
  have h3 := (h.ok e he).left
  have h4 := (h.ok e he).right
  omega

lemma ownerOf_none (h : Segs t) :
    ownerOf t x = none ↔ ∀ e ∈ t, ¬(e.1.left ≤ x ∧ x ≤ e.1.right) := by
  rw [Option.eq_none_iff_forall_not_mem]
  constructor
  · exact fun hn e he hx => hn e.2 ((ownerOf_seg h he).mpr hx)
  · intro hn s hs
    obtain ⟨e, he, _, hx⟩ := (ownerOf_some h).mp hs
    exact hn e he hx

/-- Only the record with the start of a segment can be its owner. -/
lemma ownerOf_startAddr (h : Segs t) (hs : ownerOf t x = some s) :
    s.startAddr ≤ x ∧ x < s.startAddr + s.grantSize ∧
      ownerOf t s.startAddr = some s := by
  obtain ⟨e, he, rfl, h1, h2⟩ := (ownerOf_some h).mp hs
  have h3 := (h.ok e he).left
  have h4 := (h.ok e he).right
  exact ⟨by omega, by omega, (ownerOf_seg h he).mpr ⟨by omega, by omega⟩⟩

end Owner

section Lookup

variable {t t' : RangeTable} {e f : Range × SegInfo} {k : Range} {x : Nat}

lemma lowerBound_split {l r : RangeTable} (hl : ∀ f ∈ l, f.1.right < k.left)
    (he : ¬e.1.right < k.left) : RangeTable.lowerBound (l ++ e :: r) k = some e := by
  rw [RangeTable.lowerBound, List.find?_append, List.find?_eq_none.mpr, Option.none_or,
    List.find?_cons_of_pos]
  · simpa [modCmp] using he
  · intro f hf
    simpa [modCmp] using hl f hf

/-- `find` gives the record whose range a key starts in. -/
lemma find_of_mem (h : Apart t) (he : e ∈ t) (h1 : e.1.left ≤ k.left) (h2 : k.left ≤ e.1.right)
    (h3 : e.1.left ≤ k.right) : t.find k = some e := by
  obtain ⟨l, r, rfl, hl, _⟩ := h.split he
  rw [RangeTable.find, lowerBound_split (fun f hf => lt_of_lt_of_le (hl f hf) h1) (by omega)]
  have hcmp : ¬modCmp k e.1 = true := by simpa [modCmp] using h3
  simp only
  rw [if_neg hcmp]

lemma mem_of_find (h : t.find k = some e) :
    e ∈ t ∧ k.left ≤ e.1.right ∧ e.1.left ≤ k.right := by
  rw [RangeTable.find] at h
  cases hl : t.lowerBound k with
  | none =>
    rw [hl] at h
    cases h
  | some f =>
    rw [hl] at h
    simp only at h
    by_cases hc : modCmp k f.1 = true
    · rw [if_pos hc] at h
      cases h
    · rw [if_neg hc] at h
      obtain rfl := Option.some.inj h
      have h1 := List.find?_some hl
      simp only [modCmp, decide_eq_true_eq, Bool.not_eq_true', decide_eq_false_iff_not,
        not_lt] at h1 hc
      exact ⟨List.mem_of_find?_eq_some hl, h1, hc⟩

/-- Where `find` gives nothing, no range meets the key. -/
lemma find_none (h : Apart t) (hf : t.find k = none) (he : e ∈ t) :
    e.1.right < k.left ∨ k.right < e.1.left := by
  rw [RangeTable.find] at hf
  cases hl : t.lowerBound k with
  | none =>
    have := List.find?_eq_none.mp hl e he
    simp only [modCmp, Bool.not_eq_true', decide_eq_false_iff_not, not_not] at this
    exact Or.inl this
  | some f =>
    rw [hl] at hf
    simp only at hf
    by_cases hc : modCmp k f.1 = true
    · have hc' : k.right < f.1.left := by simpa [modCmp] using hc
      obtain ⟨_, as, bs, rfl, has⟩ := List.find?_eq_some_iff_append.mp hl
      rcases List.mem_append.mp he with he | he
      · have := has e he
        simp only [modCmp, Bool.not_not, decide_eq_true_eq] at this
        exact Or.inl this
      · have hle := h.le f (by simp)
        rcases List.mem_cons.mp he with rfl | he
        · exact Or.inr hc'
        · have := (List.pairwise_cons.mp (List.pairwise_append.mp h.sorted).2.1).1 e he
          exact Or.inr (by omega)
    · rw [if_neg hc] at hf
      cases hf

lemma findSeg_match {left size : Nat} {data : SegInfo}
    (h : ummuFindSeg left size t = (some data, .rangeMatch)) :
    ∃ e ∈ t, e.2 = data ∧ e.1 = Range.ofSize left size := by
  rw [ummuFindSeg] at h
  cases hf : t.find (Range.ofSize left size) with
  | none =>
    rw [hf] at h
    cases h
  | some e =>
    rw [hf] at h
    simp only at h
    by_cases hc : e.1.left = left ∧ e.1.right = (left + size) % 2 ^ 64
    · rw [if_pos hc] at h
      obtain ⟨⟨l, r⟩, s⟩ := e
      simp only at hc
      exact ⟨_, (mem_of_find hf).1, by simpa using h, by rw [Range.ofSize, hc.1, hc.2]⟩
    · rw [if_neg hc] at h
      cases h

lemma findSeg_notExist {left size : Nat} (h : (ummuFindSeg left size t).2 = .rangeNotExist) :
    t.find (Range.ofSize left size) = none := by
  rw [ummuFindSeg] at h
  cases hf : t.find (Range.ofSize left size) with
  | none => rfl
  | some e =>
    rw [hf] at h
    simp only at h
    split at h <;> cases h

lemma findSeg_of_mem {left size : Nat} (h : Apart t) (he : e ∈ t)
    (hk : e.1 = Range.ofSize left size) : ummuFindSeg left size t = (some e.2, .rangeMatch) := by
  have hle := h.le e he
  rw [ummuFindSeg, ← hk, find_of_mem h he (le_refl _) hle hle]
  simp only
  rw [if_pos]
  rw [hk]
  exact ⟨rfl, rfl⟩

/-- The range of a record does not wrap. -/
lemma Segs.no_wrap {left size : Nat} (h : Segs t) (he : e ∈ t) (hsize : size < 2 ^ 64)
    (hk : e.1 = Range.ofSize left size) : e.1.left = left ∧ e.1.right = left + size := by
  have hok := h.ok e he
  have h1 := hok.le
  have h2 := hok.lt
  have h3 : e.1.left = left := by rw [hk]; rfl
  have h4 : e.1.right = (left + size) % 2 ^ 64 := by rw [hk]; rfl
  omega

end Lookup

section Change

variable {t t' : RangeTable} {e : Range × SegInfo} {k : Range} {x : Nat}

/-- Erasing at the record that a key starts with takes it away and nothing else. -/
lemma Apart.erase (h : Apart t) (he : e ∈ t) (hk : k.left = e.1.left) :
    (t.erase k).Sublist t ∧ ∀ f, f ∈ t.erase k ↔ f ∈ t ∧ f ≠ e := by
  have hle := h.le e he
  obtain ⟨l, r, rfl, hl, hr⟩ := h.split he
  have herase : RangeTable.erase (l ++ e :: r) k = l ++ r := by
    rw [RangeTable.erase, List.eraseP_append_right, List.eraseP_cons_of_pos]
    · have hcmp : modCmp e.1 k = false :=
        decide_eq_false (show ¬e.1.right < k.left by omega)
      rw [hcmp]
      rfl
    · intro f hf
      have hcmp : modCmp f.1 k = true :=
        decide_eq_true (show f.1.right < k.left by have := hl f hf; omega)
      simp [hcmp]
  rw [herase]
  refine ⟨List.Sublist.append_left (List.sublist_cons_self ..) _, fun f => ?_⟩
  simp only [List.mem_append, List.mem_cons]
  constructor
  · rintro (hf | hf)
    · exact ⟨Or.inl hf, fun he => by have := hl f hf; rw [he] at this; omega⟩
    · exact ⟨Or.inr (Or.inr hf), fun he => by have := hr f hf; rw [he] at this; omega⟩
  · rintro ⟨hf | rfl | hf, hne⟩
    · exact Or.inl hf
    · exact (hne rfl).elim
    · exact Or.inr hf

/-- `find` with the wide key of `ummu_delete_seg` still gives the record that starts there. -/
lemma Apart.find_wide {left size : Nat} (h : Apart t) (he : e ∈ t) (hleft : e.1.left = left)
    (hright : e.1.right = left + size) :
    t.find (Range.ofSize left ((left + size) % 2 ^ 64)) = some e := by
  have hlt := h.lt e he
  have hle := h.le e he
  refine find_of_mem h he (le_of_eq hleft) (show left ≤ e.1.right by omega) ?_
  show e.1.left ≤ (left + (left + size) % 2 ^ 64) % 2 ^ 64
  rw [Nat.mod_eq_of_lt (a := left + size) (by omega), Nat.mod_eq_of_lt (by omega)]
  omega

/-- `ummu_delete_seg` on a recorded segment takes its record away. -/
theorem deleteSeg_spec {left size : Nat} (h : Segs t) (he : e ∈ t) (hsize : size < 2 ^ 64)
    (hk : e.1 = Range.ofSize left size) :
    ∃ t', ummuDeleteSeg left size t = (0, t') ∧ Segs t' ∧ (∀ f, f ∈ t' ↔ f ∈ t ∧ f ≠ e) ∧
      ownerOf t' = cut (ownerOf t) e.1.left (e.1.right + 1) := by
  obtain ⟨hleft, hright⟩ := h.no_wrap he hsize hk
  have hlt := (h.ok e he).lt
  have hmod : (left + size) % 2 ^ 64 = left + size := Nat.mod_eq_of_lt (by omega)
  have hfind := h.apart.find_wide he hleft hright
  obtain ⟨hsub, hmem⟩ := h.apart.erase (k := Range.ofSize left (left + size)) he hleft.symm
  have hsegs : Segs (t.erase (Range.ofSize left (left + size))) :=
    ⟨h.sorted.sublist hsub, fun f hf => h.ok f ((hmem f).mp hf).1⟩
  refine ⟨_, ?_, hsegs, hmem, ?_⟩
  · rw [hmod] at hfind
    rw [ummuDeleteSeg]
    simp only [hmod, hfind]
    rw [if_pos ⟨hleft, hright⟩]
  · funext x
    by_cases hx : e.1.left ≤ x ∧ x < e.1.right + 1
    · rw [cut_in hx, ownerOf_none hsegs]
      intro f hf hfx
      obtain ⟨hf', hne⟩ := (hmem f).mp hf
      exact hne (h.apart.unique he hf' (by omega) (by omega))
    · rw [cut_out hx]
      refine Option.ext (fun s => ?_)
      rw [ownerOf_some hsegs, ownerOf_some h]
      constructor
      · rintro ⟨f, hf, hfs⟩
        exact ⟨f, ((hmem f).mp hf).1, hfs⟩
      · rintro ⟨f, hf, hfs, hfx⟩
        refine ⟨f, (hmem f).mpr ⟨hf, ?_⟩, hfs, hfx⟩
        rintro rfl
        omega

/-- Behind the place of a range all records are after it. -/
lemma Apart.insert_behind (h : Apart t) :
    ∀ f ∈ t.dropWhile (fun e => !modCmp k e.1), k.right < f.1.left := by
  have happ := List.takeWhile_append_dropWhile (p := fun e => !modCmp k e.1) (l := t)
  cases hd : t.dropWhile (fun e => !modCmp k e.1) with
  | nil => intro f hf; cases hf
  | cons b bs =>
    have hhead := List.head?_dropWhile_not (fun e : Range × SegInfo => !modCmp k e.1) t
    rw [hd] at hhead happ
    simp only [List.head?_cons, modCmp, Bool.not_eq_false', decide_eq_true_eq] at hhead
    rw [← happ] at h
    have hb := (List.pairwise_cons.mp (List.pairwise_append.mp h.sorted).2.1).1
    have hble := h.le b (by simp)
    intro f hf
    rcases List.mem_cons.mp hf with rfl | hf
    · exact hhead
    · have := hb f hf
      omega

/-- The place of a free range between the records. -/
lemma insert_place (h : Apart t)
    (hfree : ∀ f ∈ t, f.1.right < k.left ∨ k.right < f.1.left) :
    (∀ f ∈ t.takeWhile (fun e => !modCmp k e.1), f.1.right < k.left) ∧
      ∀ f ∈ t.dropWhile (fun e => !modCmp k e.1), k.right < f.1.left := by
  have happ := List.takeWhile_append_dropWhile (p := fun e => !modCmp k e.1) (l := t)
  constructor
  · intro f hf
    have h1 := List.mem_takeWhile_imp hf
    simp only [modCmp, Bool.not_eq_true', decide_eq_false_iff_not] at h1
    exact (hfree f (happ ▸ List.mem_append_left _ hf)).resolve_right h1
  · exact h.insert_behind

/-- A free range goes in between the records before it and those behind it. -/
lemma Apart.insert {data : SegInfo} (h : Apart t)
    (hfree : ∀ f ∈ t, f.1.right < k.left ∨ k.right < f.1.left) :
    ∃ t', t.insert k data = some t' ∧ t'.Pairwise (fun e f => e.1.right < f.1.left) ∧
      ∀ f, f ∈ t' ↔ f = (k, data) ∨ f ∈ t := by
  obtain ⟨hl, hr⟩ := insert_place h hfree
  have happ := List.takeWhile_append_dropWhile (p := fun e => !modCmp k e.1) (l := t)
  have hins : t.insert k data = some (t.takeWhile (fun e => !modCmp k e.1) ++
      (k, data) :: t.dropWhile (fun e => !modCmp k e.1)) := by
    unfold RangeTable.insert
    cases hg : (t.takeWhile (fun e => !modCmp k e.1)).getLast? with
    | none =>
      rw [List.getLast?_eq_none_iff] at hg
      simp only [hg, List.getLast?_nil, List.nil_append]
    | some e =>
      have hcmp : modCmp e.1 k = true := by
        simpa [modCmp] using hl e (List.mem_of_getLast? hg)
      simp only [hg]
      rw [if_pos hcmp]
  generalize t.takeWhile (fun e => !modCmp k e.1) = l at hl happ hins
  generalize t.dropWhile (fun e => !modCmp k e.1) = r at hr happ hins
  subst happ
  obtain ⟨h1, h2, h3⟩ := List.pairwise_append.mp h.sorted
  refine ⟨_, hins, List.pairwise_append.mpr ⟨h1, List.pairwise_cons.mpr ⟨hr, h2⟩, ?_⟩, fun f => ?_⟩
  · intro f hf e he
    rcases List.mem_cons.mp he with rfl | he
    · exact hl f hf
    · exact h3 f hf e he
  · simp only [List.mem_append, List.mem_cons]
    tauto

/-- A range that meets a record stays out. -/
lemma Apart.insert_taken {data : SegInfo} (h : Apart t) (he : e ∈ t) (h1 : k.left ≤ e.1.right)
    (h2 : e.1.left ≤ k.right) : t.insert k data = none := by
  have happ := List.takeWhile_append_dropWhile (p := fun e => !modCmp k e.1) (l := t)
  have hfront : e ∈ t.takeWhile (fun e => !modCmp k e.1) := by
    rcases List.mem_append.mp (happ.symm ▸ he) with hf | hf
    · exact hf
    · have := h.insert_behind e hf
      omega
  unfold RangeTable.insert
  cases hg : (t.takeWhile (fun e => !modCmp k e.1)).getLast? with
  | none =>
    rw [List.getLast?_eq_none_iff] at hg
    rw [hg] at hfront
    cases hfront
  | some f =>
    have hf : e.1.right ≤ f.1.right := by
      obtain ⟨m, hm⟩ := List.getLast?_eq_some_iff.mp hg
      rw [hm] at hfront happ
      rcases List.mem_append.mp hfront with he' | he'
      · have hsorted := h.sorted
        rw [← happ] at hsorted
        have hlt := (List.pairwise_append.mp (List.pairwise_append.mp hsorted).1).2.2 e he' f
          (List.mem_singleton.mpr rfl)
        have hle := h.le f (happ ▸ by simp)
        omega
      · rw [List.mem_singleton.mp he']
    have hcmp : ¬modCmp f.1 k = true := by
      rw [modCmp, decide_eq_true_eq]
      omega
    simp only [hg]
    rw [if_neg hcmp]

/-- A record of a free range goes in. -/
theorem insertSeg_spec {data : SegInfo} {left size : Nat} (h : Segs t)
    (hok : SegOk (Range.ofSize left size, data))
    (hfree : ∀ f ∈ t, f.1.right < left ∨ (Range.ofSize left size).right < f.1.left) :
    ∃ t', ummuInsertSeg data t left size = (0, t') ∧ Segs t' ∧
      (∀ f, f ∈ t' ↔ f = (Range.ofSize left size, data) ∨ f ∈ t) ∧
      ownerOf t' = put (ownerOf t) left (Range.ofSize left size).right data := by
  generalize hk : Range.ofSize left size = k at hok hfree
  have hkl : k.left = left := by rw [← hk]; rfl
  have hle := hok.le
  obtain ⟨t', hins, hsorted, hmem⟩ := @Apart.insert t k data h.apart (by rwa [hkl])
  have hsegs : Segs t' := by
    refine ⟨hsorted, fun f hf => ?_⟩
    rcases (hmem f).mp hf with rfl | hf
    · exact hok
    · exact h.ok f hf
  refine ⟨t', by rw [ummuInsertSeg, hk, hins], hsegs, hmem, ?_⟩
  funext x
  by_cases hx : left ≤ x ∧ x ≤ k.right
  · rw [put_in hx]
    exact (ownerOf_seg hsegs ((hmem (k, data)).mpr (Or.inl rfl))).mpr (by rwa [hkl])
  · rw [put_out hx]
    refine Option.ext (fun s => ?_)
    rw [ownerOf_some hsegs, ownerOf_some h]
    constructor
    · rintro ⟨f, hf, hfs, hfx⟩
      rcases (hmem f).mp hf with rfl | hf
      · exact (hx (by rwa [hkl] at hfx)).elim
      · exact ⟨f, hf, hfs, hfx⟩
    · rintro ⟨f, hf, hfs⟩
      exact ⟨f, (hmem f).mpr (Or.inr hf), hfs⟩

/-- The record of a segment is changed in place. -/
theorem modify_spec {f : SegInfo → SegInfo} (h : Segs t) (he : e ∈ t)
    (hstart : (f e.2).startAddr = e.2.startAddr) (hsize : (f e.2).grantSize = e.2.grantSize)
    (hperm : (f e.2).permission = e.2.permission) (hebit : (f e.2).eBit = e.2.eBit)
    (htokens : (f e.2).TokensOk) :
    Segs (t.modify e.1 f) ∧
      (∀ e', e' ∈ t.modify e.1 f ↔ e' = (e.1, f e.2) ∨ (e' ∈ t ∧ e' ≠ e)) ∧
      ownerOf (t.modify e.1 f) = put (ownerOf t) e.1.left e.1.right (f e.2) := by
  have hok := h.ok e he
  have hle := hok.le
  have hok' : SegOk (e.1, f e.2) :=
    ⟨hstart ▸ hok.left, by rw [hstart, hsize]; exact hok.right, hle, hok.lt, hok.page,
      hperm ▸ hok.permission, hebit ▸ hok.eBit, htokens⟩
  obtain ⟨l, r, rfl, hl, hr⟩ := h.apart.split he
  have hl' : ∀ f ∈ l, modCmp f.1 e.1 = true := fun f hf => by simpa [modCmp] using hl f hf
  have he' : ¬modCmp e.1 e.1 = true := by simpa [modCmp] using hle
  have hmod : RangeTable.modify (l ++ e :: r) e.1 f = l ++ (e.1, f e.2) :: r := by
    rw [RangeTable.modify, List.takeWhile_append_of_pos hl', List.dropWhile_append_of_pos hl',
      List.takeWhile_cons_of_neg (by exact he'), List.dropWhile_cons_of_neg (by exact he'),
      List.append_nil]
  rw [hmod]
  have hsegs : Segs (l ++ (e.1, f e.2) :: r) := by
    obtain ⟨h1, h2, h3⟩ := List.pairwise_append.mp h.sorted
    refine ⟨List.pairwise_append.mpr ⟨h1, List.pairwise_cons.mpr
      ⟨hr, (List.pairwise_cons.mp h2).2⟩, fun g hg e' he' => ?_⟩, fun g hg => ?_⟩
    · rcases List.mem_cons.mp he' with rfl | he'
      · exact hl g hg
      · exact h3 g hg e' (List.mem_cons_of_mem _ he')
    · rcases List.mem_append.mp hg with hg | hg
      · exact h.ok g (List.mem_append_left _ hg)
      · rcases List.mem_cons.mp hg with rfl | hg
        · exact hok'
        · exact h.ok g (List.mem_append_right _ (List.mem_cons_of_mem _ hg))
  have hmem : ∀ e', e' ∈ l ++ (e.1, f e.2) :: r ↔
      e' = (e.1, f e.2) ∨ (e' ∈ l ++ e :: r ∧ e' ≠ e) := by
    intro e'
    simp only [List.mem_append, List.mem_cons]
    constructor
    · rintro (h1 | rfl | h1)
      · exact Or.inr ⟨Or.inl h1, fun he => by have := hl e' h1; rw [he] at this; omega⟩
      · exact Or.inl rfl
      · exact Or.inr ⟨Or.inr (Or.inr h1), fun he => by have := hr e' h1; rw [he] at this; omega⟩
    · rintro (rfl | ⟨h1 | rfl | h1, hne⟩)
      · exact Or.inr (Or.inl rfl)
      · exact Or.inl h1
      · exact (hne rfl).elim
      · exact Or.inr (Or.inr h1)
  refine ⟨hsegs, hmem, ?_⟩
  funext x
  by_cases hx : e.1.left ≤ x ∧ x ≤ e.1.right
  · rw [put_in hx]
    exact (ownerOf_seg hsegs ((hmem (e.1, f e.2)).mpr (Or.inl rfl))).mpr hx
  · rw [put_out hx]
    refine Option.ext (fun s => ?_)
    rw [ownerOf_some hsegs, ownerOf_some h]
    constructor
    · rintro ⟨g, hg, hgs, hgx⟩
      rcases (hmem g).mp hg with rfl | ⟨hg, _⟩
      · exact (hx hgx).elim
      · exact ⟨g, hg, hgs, hgx⟩
    · rintro ⟨g, hg, hgs, hgx⟩
      refine ⟨g, (hmem g).mpr (Or.inr ⟨hg, ?_⟩), hgs, hgx⟩
      rintro rfl
      exact hx hgx

end Change

end Ummu
