import Ummu.TableOp
import Ummu.Grant

/-!
# Calls on a table-mode tid

`TableInv` is what every call of the API on a table-mode tid keeps: the range table is in order,
and the tree of the table gives each address to the record of its segment.
-/

namespace Ummu

open Lib Machine Cell

/-- The table and the range table of a tid agree. Under `y`, the nonces of nodes without a token
check are kept as well. -/
structure TableInv (y : Prop) (c : TableCtx) (t : RangeTable) (sub : SegBlock 3) : Prop where
  tree : TreeInv (.ofRecord y) c sub
  segs : Segs t
  rep : BlockRep tableGeometry 3 0 sub (ownerOf t)

/-- The call is about the segment of a record. -/
structure SegOf (d : DataInfo) (e : Range × SegInfo) : Prop where
  range : e.1 = Range.ofSize d.dataBase (d.dataSize - 1)
  size : d.dataSize < 2 ^ 64
  limit : d.dataLimit = e.1.right

section Table

variable {y : Prop} {c : TableCtx} {t : RangeTable} {sub : SegBlock 3} {d : DataInfo}
  {e : Range × SegInfo} {maps : List MapOutcome} {l : Nat} {r : Bool}

lemma SegOf.base (h : SegOf d e) : d.dataBase = e.1.left := by
  rw [h.range]
  rfl

/-- The record of the segment owns the range of the call. -/
lemma SegOf.owner (h : SegOf d e) (hs : Segs t) (he : e ∈ t) (x : Nat) :
    ownerOf t x = some e.2 ↔ d.dataBase ≤ x ∧ x ≤ d.dataLimit := by
  rw [h.base, h.limit]
  exact ownerOf_seg hs he

lemma SegOf.bounds (h : SegOf d e) (hs : Segs t) (he : e ∈ t) :
    d.dataBase ≤ d.dataLimit ∧ d.dataLimit < 2 ^ 48 := by
  rw [h.base, h.limit]
  exact ⟨(hs.ok e he).le, (hs.ok e he).lt⟩

/-- `UMMU_UNGRANT` on a recorded segment. -/
theorem tableCall_ungrant (h : TableInv y c t sub) (hmaps : FreshMaps y maps) (he : e ∈ t)
    (hd : SegOf d e) (hop : d.op = .ungrant) :
    ∃ m t' sub', tableCall r c (some t) d maps l = (0, 0, m, some t') ∧
      TableInv y m.ctx t' sub' ∧ (∀ f, f ∈ t' ↔ f ∈ t ∧ f ≠ e) ∧
      (startMachine c maps l).Traces (Quiet ∅) m := by
  obtain ⟨hle, hlt⟩ := hd.bounds h.segs he
  obtain ⟨sub', h1, h2, h3, h4⟩ := tableOp_ungrant (m := startMachine c maps l) h.tree hmaps h.rep
    hop (hd.owner h.segs he) hle hlt
  obtain ⟨t', h5, h6, h7, h8⟩ := deleteSeg_spec h.segs he
    (show d.dataSize - 1 < 2 ^ 64 by have := hd.size; omega) hd.range
  refine ⟨_, t', sub', ?_, ⟨h2, h6, ?_⟩, h7, h4⟩
  · simp only [tableCall, h1, if_true, ummuUpdateInfo, hop, ummuDeleteAddr, h5]
    rfl
  · rw [h8, ← hd.base, ← hd.limit]
    exact h3

lemma tokenRecord_tokensOk {s : SegInfo} (h : TokenReady d s) : (tokenRecord d s).TokensOk := by
  obtain ⟨htc, ⟨hop, _⟩ | ⟨hop, hval⟩⟩ := h
  · rw [tokenRecord_add hop]
    exact Or.inr (Or.inr ⟨htc, rfl⟩)
  · rw [tokenRecord, if_pos hop, ummuRemoveTokenval]
    by_cases hv : s.tokenVal0 = d.tokenVal
    · rw [if_pos hv]
      exact Or.inr (Or.inl ⟨htc, rfl, rfl⟩)
    · rw [if_neg hv, if_pos (hval.resolve_left hv)]
      exact Or.inr (Or.inl ⟨htc, rfl, rfl⟩)

/-- A token operation on a recorded segment. -/
theorem tableCall_token (h : TableInv y c t sub) (hmaps : FreshMaps y maps) (he : e ∈ t)
    (hd : SegOf d e) (hready : TokenReady d e.2) :
    ∃ m t' sub', tableCall r c (some t) d maps l = (0, 0, m, some t') ∧
      TableInv y m.ctx t' sub' ∧
      (∀ f, f ∈ t' ↔ f = (e.1, tokenRecord d e.2) ∨ (f ∈ t ∧ f ≠ e)) ∧
      (startMachine c maps l).Traces (Quiet ∅) m := by
  obtain ⟨hle, hlt⟩ := hd.bounds h.segs he
  obtain ⟨r1, r2, _, r4, r5⟩ := tokenRecord_rest d e.2
  have hnew : ∀ x, ownerOf t x = some (tokenRecord d e.2) → ownerOf t x = some e.2 := by
    intro x hx
    obtain ⟨h1, h2, _⟩ := ownerOf_startAddr h.segs hx
    rw [r4, r5] at h2
    rw [r4] at h1
    have hok := h.segs.ok e he
    have := hok.left
    have := hok.right
    exact (ownerOf_seg h.segs he).mpr ⟨by omega, by omega⟩
  obtain ⟨sub', h1, h2, h3, h4⟩ := tableOp_token (m := startMachine c maps l) h.tree hmaps h.rep
    hready (hd.owner h.segs he) hnew hle hlt
  obtain ⟨h5, h6, h7⟩ := modify_spec (f := tokenRecord d) h.segs he r4 r5 r1 r2
    (tokenRecord_tokensOk hready)
  refine ⟨_, _, sub', ?_, ⟨h2, h5, ?_⟩, h6, h4⟩
  · have hfind := findSeg_of_mem h.segs.apart he hd.range
    simp only [tableCall, h1, if_true, ummuUpdateInfo]
    rcases hready.2 with ⟨hop, _⟩ | ⟨hop, _⟩
    · simp only [hop, ummuTokenUpdate, hfind, ← hd.range]
      rw [if_neg (by decide)]
      have hfun : tokenRecord d = fun s : SegInfo => { s with
          tokenVal1 := d.tokenVal, tokenCount := BitVec.ofNat 8 ummuMaxTokenNum } :=
        funext (tokenRecord_add hop)
      rw [hfun]
      rfl
    · simp only [hop, ummuTokenUpdate, hfind, ← hd.range, if_true]
      have hfun : tokenRecord d = ummuRemoveTokenval d.tokenVal := by
        funext s
        rw [tokenRecord, if_pos hop]
      rw [hfun]
      rfl
  · rw [h7, ← hd.base, ← hd.limit]
    exact h3

/-- What the argument checks of a grant leave. -/
structure DataOk (d : DataInfo) : Prop where
  size : d.dataSize ≠ 0
  limit : d.dataLimit + 1 = d.dataBase + d.dataSize
  lt : d.dataLimit < 2 ^ 48
  page : 4096 ∣ d.dataBase
  perm : d.perm.toNat < 2 ^ 6
  eBit : d.eBit.toNat < 2

lemma DataOk.range (h : DataOk d) :
    Range.ofSize d.dataBase (d.dataSize - 1) = ⟨d.dataBase, d.dataLimit⟩ := by
  have h1 := h.size
  have h2 := h.limit
  have h3 := h.lt
  rw [Range.ofSize, show d.dataBase + (d.dataSize - 1) = d.dataLimit by omega,
    Nat.mod_eq_of_lt (by omega)]

lemma newSegInfo_ok (h : DataOk d) : SegOk (⟨d.dataBase, d.dataLimit⟩, newSegInfo d) := by
  have h1 := h.size
  have h2 := h.limit
  refine ⟨rfl, h2, show d.dataBase ≤ d.dataLimit by omega, h.lt, h.page, h.perm, h.eBit, ?_⟩
  by_cases htc : d.tokenCheck = true
  · exact Or.inr (Or.inl (by simp [newSegInfo, htc]))
  · exact Or.inl (by simp [newSegInfo, htc])

/-- A range that meets no record touches no page of one. -/
lemma freePages_of_disjoint (hs : Segs t) (h : DataOk d)
    (hfree : ∀ f ∈ t, f.1.right < d.dataBase ∨ d.dataLimit < f.1.left) :
    FreePages tableGeometry (ownerOf t) d.dataBase d.dataLimit := by
  intro x hx1 hx2
  rw [ownerOf_none hs]
  rintro f hf ⟨h1, h2⟩
  obtain ⟨k, hk⟩ := h.page
  obtain ⟨j, hj⟩ := (hs.ok f hf).page
  have hpage : tableGeometry.page = 4096 := rfl
  rw [hpage] at hx1 hx2
  rcases hfree f hf with h3 | h3 <;> omega

/-- `UMMU_GRANT` on a range that meets no record. -/
theorem tableCall_grant (h : TableInv y c t sub) (hmaps : FreshMaps y maps) (hd : DataOk d)
    (hop : d.op = .grant) (hfree : ∀ f ∈ t, f.1.right < d.dataBase ∨ d.dataLimit < f.1.left) :
    (∃ m t' sub', tableCall true c (some t) d maps l = (0, 0, m, some t') ∧
      TableInv y m.ctx t' sub' ∧
      (∀ f, f ∈ t' ↔ f = (⟨d.dataBase, d.dataLimit⟩, newSegInfo d) ∨ f ∈ t) ∧
      (startMachine c maps l).Traces (Quiet allocErrors) m) ∨
    (∃ code m, tableCall true c (some t) d maps l = (code, code, m, some t) ∧ code ≠ 0 ∧
      t ≠ [] ∧ TableInv y m.ctx t sub ∧ RolledBack m.trace) := by
  have hok := newSegInfo_ok hd
  have hrange := hd.range
  have hle : d.dataBase ≤ d.dataLimit := hok.le
  have hfp := freePages_of_disjoint h.segs hd hfree
  have hnew : ∀ x, ownerOf t x ≠ some (newSegInfo d) := by
    intro x hx
    obtain ⟨_, _, h1⟩ := ownerOf_startAddr h.segs hx
    have h2 := hfp.none_of_mem (x := d.dataBase) (le_refl _) hle
    rw [show (newSegInfo d).startAddr = d.dataBase from rfl, h2] at h1
    cases h1
  rcases tableOp_grant (m := startMachine c maps l) (NodeRule.ofRecord_fills y d) h.tree hmaps
    h.rep hop hfp hnew hle hd.lt with ⟨h1, ⟨sub', h2, h3⟩, h4⟩ | ⟨h1, ⟨i, hi⟩, h2, h3⟩
  · obtain ⟨t', h5, h6, h7, h8⟩ := insertSeg_spec h.segs
      (show SegOk (Range.ofSize d.dataBase (d.dataSize - 1), newSegInfo d) by rw [hrange]; exact hok)
      (by rw [hrange]; exact hfree)
    rw [hrange] at h7 h8
    refine Or.inl ⟨_, t', sub', ?_, ⟨h2, h6, by rw [h8]; exact h3⟩, h7, h4⟩
    simp only [tableCall, h1, if_true, ummuUpdateInfo, hop, ummuInsertNewAddr]
    rw [show (newSegInfo d).startAddr = d.dataBase from rfl,
      show (newSegInfo d).grantSize = d.dataSize from rfl, h5]
    rfl
  · have hsome : t ≠ [] := by
      rintro rfl
      exact hi (rep_empty_of_none (h.rep i) (fun _ _ => rfl))
    refine Or.inr ⟨_, _, ?_, h1, hsome, ⟨h2, h.segs, h.rep⟩, h3 rfl⟩
    simp only [tableCall]
    rw [if_neg h1]

end Table

end Ummu
