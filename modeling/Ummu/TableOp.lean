import Ummu.UpdateSpec
import Ummu.SegTable

/-!
# Table operations on a whole table

`TableInv` ties the tree in a table context to the range table of the tid. Every operation that the
checks let through keeps it, with the change of the range table that follows; a grant whose
allocation fails is rolled back to the tree as it was.
-/

namespace Ummu

open Lib Machine Cell

/-- The nodes of the table, from level block 0 on, are the cells `sub`, and the bitmap marks the
level blocks of the tree. -/
structure TreeInv (z : NodeRule) (c : TableCtx) (sub : SegBlock 3) : Prop where
  ctx : CtxInv z.zero c
  rep : BlockAt z c 0 0 sub
  sep : BlockSep 0 sub
  used : foot 0 sub = c.used

section Tree

variable {z : NodeRule} {E : Set TableError} {m m' : Machine} {sub sub' : SegBlock 3}
  {dat : DataInfo}

/-- A table operation starts at the local root, which links to level block 0. -/
lemma TreeInv.state (h : TreeInv z m.ctx sub) (hmaps : FreshMaps z.zero m.maps)
    (hroot : m.root = TableNode.zero) : BlockState z m .root 0 0 sub := by
  refine ⟨⟨h.ctx, hmaps⟩, ?_, ?_, h.rep, h.sep, le_of_eq h.used, Or.inl ⟨rfl, rfl⟩, ?_⟩
  · rw [Machine.node, hroot]
    exact ⟨rfl, rfl⟩
  · rw [Machine.node, hroot]
    rfl
  · intro h0
    obtain ⟨i, hi⟩ := Set.mem_iUnion.mp h0
    exact h.sep.1 i hi

lemma used_of_own {c c' : TableCtx} {F : Set Nat} (h : foot 0 sub = c.used)
    (hown : Own c.used (foot 0 sub) c'.used F) : F = c'.used := by
  rw [hown.eq, h, Set.sdiff_self, Set.empty_union]

lemma BlockKeep.tree (hs : TreeInv z m.ctx sub) (h : BlockKeep z E m 0 0 sub m' sub') :
    TreeInv z m'.ctx sub' :=
  ⟨h.inv.ctx, h.rep, h.sep, used_of_own hs.used h.own⟩

lemma BlockRun.tree (hs : TreeInv z m.ctx sub) (h : BlockRun z E m .root 0 0 sub m' sub') :
    TreeInv z m'.ctx sub' := by
  rcases h with ⟨_, hk⟩ | ⟨he, hg⟩
  · exact hk.tree hs
  · have hown := hg.own
    rw [if_pos rfl] at hown
    refine ⟨hg.inv.ctx, fun i => ?_, ⟨fun i => ?_, fun i j _ => ?_, fun i => ?_⟩, ?_⟩
    · rw [he i]
      exact hg.empty i i.isLt
    · rw [he i]
      exact fun h => h
    · rw [he i]
      exact Set.empty_disjoint _
    · rw [he i]
      trivial
    · rw [foot_empty he, used_of_own hs.used hown]

lemma BlockRun.trace (h : BlockRun z E m .root 0 0 sub m' sub') : m.Traces (Quiet E) m' := by
  rcases h with ⟨_, hk⟩ | ⟨_, hg⟩
  · exact hk.trace
  · exact hg.trace

/-- The root node that `ummu_table_op` sets up. -/
lemma state_root (h : TreeInv z m.ctx sub) (hmaps : FreshMaps z.zero m.maps) :
    BlockState z { m with root := TableNode.zero } .root 0 0 sub :=
  TreeInv.state (m := { m with root := TableNode.zero }) h hmaps rfl

lemma inSlot_top {x : Nat} : tableGeometry.InSlot 4 0 x ↔ x < 2 ^ 48 := by
  rw [Geometry.InSlot, span_eq]
  omega

/-- `UMMU_UNGRANT` on a range with one owner clears it. -/
theorem tableOp_ungrant {U : Nat → Option SegInfo} {s : SegInfo} (h : TreeInv z m.ctx sub)
    (hmaps : FreshMaps z.zero m.maps) (hrep : BlockRep tableGeometry 3 0 sub U)
    (hop : dat.op = .ungrant)
    (hs : ∀ x, U x = some s ↔ dat.dataBase ≤ x ∧ x ≤ dat.dataLimit)
    (hle : dat.dataBase ≤ dat.dataLimit) (hlt : dat.dataLimit < 2 ^ 48) :
    ∃ sub', (ummuTableOp dat m).1 = 0 ∧ TreeInv z (ummuTableOp dat m).2.ctx sub' ∧
      BlockRep tableGeometry 3 0 sub' (cut U dat.dataBase (dat.dataLimit + 1)) ∧
      m.Traces (Quiet ∅) (ummuTableOp dat m).2 := by
  have hstate := state_root h hmaps
  obtain ⟨sub', hclear, hrep'⟩ := clearBlock_of_slots (clear_exists True s 3) hrep
    (fun x _ => hs x) (Nat.zero_le _) (inSlot_top.mpr hlt) hle (Or.inl trivial)
  have hspan : dat.dataLimit < tableGeometry.span (3 + 1) := by
    rw [span_eq]
    omega
  rw [← Nat.zero_add dat.dataBase, ← Nat.zero_add dat.dataLimit] at hclear
  obtain ⟨hcode, hrun⟩ := clearByLevel_spec (E := ∅) True (le_refl 3) _ _ _ _ _ _ _ _ _ hstate hle
    hspan hclear (fun h => by cases h)
  rw [ummuTableOp, hop]
  exact ⟨sub', hcode.mpr rfl, hrun.tree (m := { m with root := TableNode.zero }) h, hrep', hrun.trace⟩

/-- A token operation on a range with one owner changes the owner's record. -/
theorem tableOp_token {y : Prop} {U : Nat → Option SegInfo} {s : SegInfo}
    (h : TreeInv (.ofRecord y) m.ctx sub) (hmaps : FreshMaps y m.maps)
    (hrep : BlockRep tableGeometry 3 0 sub U) (hready : TokenReady dat s)
    (hs : ∀ x, U x = some s ↔ dat.dataBase ≤ x ∧ x ≤ dat.dataLimit)
    (hnew : ∀ x, U x = some (tokenRecord dat s) → U x = some s)
    (hle : dat.dataBase ≤ dat.dataLimit) (hlt : dat.dataLimit < 2 ^ 48) :
    ∃ sub', (ummuTableOp dat m).1 = 0 ∧
      TreeInv (.ofRecord y) (ummuTableOp dat m).2.ctx sub' ∧
      BlockRep tableGeometry 3 0 sub'
        (put U dat.dataBase dat.dataLimit (tokenRecord dat s)) ∧
      m.Traces (Quiet ∅) (ummuTableOp dat m).2 := by
  have hstate := state_root h hmaps
  obtain ⟨sub', hupdate, hrep'⟩ := updateBlock_of_slots (update_exists (tokenRecord dat) s 3) hrep
    (fun x _ => hs x) (Nat.zero_le _) (inSlot_top.mpr hlt) hle (fun x _ => hnew x)
  have hspan : dat.dataLimit < tableGeometry.span (3 + 1) := by
    rw [span_eq]
    omega
  rw [← Nat.zero_add dat.dataBase, ← Nat.zero_add dat.dataLimit] at hupdate
  obtain ⟨hcode, hkeep⟩ := updateByLevel_spec (E := ∅) hready (le_refl 3) _ _ _ _ _ _ _ _ hstate
    hle hspan hupdate
  have hgo : ummuTableOp dat m = ummuTableUpdateTokenByLevel dat (maxLevelIndex + 1) .root
      dat.dataBase dat.dataLimit { m with root := TableNode.zero } := by
    rw [ummuTableOp]
    rcases hready.2 with ⟨hop, _⟩ | ⟨hop, _⟩ <;> rw [hop]
  rw [hgo]
  exact ⟨sub', hcode, hkeep.tree (m := { m with root := TableNode.zero }) h, hrep', hkeep.trace⟩

/-- The errors of a failed allocation. -/
def allocErrors : Set TableError := {.invalidLevelId, .allocLevelBlockFailed}

/-- An allocation failed, and then the range was cleared; the clear ends where it meets the leaf
that got no child block. -/
def RolledBack (trace : List Event) : Prop :=
  ∃ es es', trace = es ++ es' ∧ Event.error .allocLevelBlockFailed ∈ es ∧
    (∀ ev ∈ es, Quiet allocErrors ev) ∧ ∀ ev ∈ es', Quiet {.unexpectedFailed} ev

/-- `UMMU_GRANT` on free pages either gives the range to the new record, or it fails in an
allocation and is rolled back. -/
theorem tableOp_grant {U : Nat → Option SegInfo} (hz : z.Fills dat) (h : TreeInv z m.ctx sub)
    (hmaps : FreshMaps z.zero m.maps) (hrep : BlockRep tableGeometry 3 0 sub U)
    (hop : dat.op = .grant) (hfree : FreePages tableGeometry U dat.dataBase dat.dataLimit)
    (hnew : ∀ x, U x ≠ some (newSegInfo dat)) (hle : dat.dataBase ≤ dat.dataLimit)
    (hlt : dat.dataLimit < 2 ^ 48) :
    ((ummuTableOp dat m).1 = 0 ∧ (∃ sub', TreeInv z (ummuTableOp dat m).2.ctx sub' ∧
        BlockRep tableGeometry 3 0 sub'
          (put U dat.dataBase dat.dataLimit (newSegInfo dat))) ∧
        m.Traces (Quiet allocErrors) (ummuTableOp dat m).2) ∨
    ((ummuTableOp dat m).1 ≠ 0 ∧ (∃ i, sub i ≠ empty) ∧
      TreeInv z (ummuTableOp dat m).2.ctx sub ∧
      (m.trace = [] → RolledBack (ummuTableOp dat m).2.trace)) := by
  have hstate := state_root h hmaps
  have hspan : dat.dataLimit < tableGeometry.span (3 + 1) := by
    rw [span_eq]
    omega
  have hready : FillBlockReady tableGeometry 3 0 sub (0 + dat.dataBase) (0 + dat.dataLimit) := by
    rw [Nat.zero_add, Nat.zero_add]
    exact fillBlockReady_of_free (Nat.dvd_zero _) hrep hfree (Nat.zero_le _) hle
  obtain ⟨sub', ok, hfill, hkeep, hcode, hfail⟩ := fillByLevel_spec
    (E := allocErrors) hz (Or.inl rfl) (Or.inr rfl) (le_refl 3) _ _ _
    _ _ _ _ hstate hle hspan hready
  rw [Nat.zero_add, Nat.zero_add] at hfill
  have htree := hkeep.tree (m := { m with root := TableNode.zero }) h
  rw [ummuTableOp, hop]
  simp only
  cases ok with
  | true =>
    have h0 : ¬(ummuTableFillNodeByLevel dat (maxLevelIndex + 1) .root dat.dataBase dat.dataLimit
        { m with root := TableNode.zero }).1 ≠ 0 := not_not.mpr (hcode.mpr rfl)
    rw [if_neg h0]
    refine Or.inl ⟨hcode.mpr rfl, ⟨sub', htree, ?_⟩, hkeep.trace⟩
    exact fillBlock_of_slots (fill_rep (newSegInfo dat) 3) hfill hrep
      (fun x h1 h2 => hfree.none_of_mem h1 h2) (fun x _ => hnew x) (Nat.zero_le _) hle
  | false =>
    have hne : (ummuTableFillNodeByLevel dat (maxLevelIndex + 1) .root dat.dataBase dat.dataLimit
        { m with root := TableNode.zero }).1 ≠ 0 := fun h => Bool.false_ne_true (hcode.mp h)
    have hclear : ClearBlock tableGeometry False 3 0 sub' (0 + dat.dataBase) (0 + dat.dataLimit)
        sub false := by
      rw [Nat.zero_add, Nat.zero_add]
      refine clearBlock_of_fills (fill_clear (newSegInfo dat) 3) hfill (Nat.zero_le _) hle
        (fun i => rep_inhabited (hrep i)) (fun i b' e' hb he path q hq hm => ?_)
      obtain ⟨hin, hown⟩ := rep_pieceAt (hrep i) hq
      have hnone := hfree.none_of_mem (x := q.base) (by omega) (by omega)
      rw [hown q.base hin.mem_base] at hnone
      cases hnone
    obtain ⟨_, hrun⟩ := clearByLevel_spec (E := {.unexpectedFailed}) False (le_refl 3) _ _ _ _ _ _ _ _ _
      (hkeep.state hstate) hle hspan hclear (fun _ => rfl)
    have hsome : ∃ i, sub i ≠ empty := by
      by_contra hall
      push Not at hall
      exact Bool.false_ne_true (hfill.ok_of_empty hall)
    rw [if_pos hne]
    refine Or.inr ⟨hne, hsome, hrun.tree htree, fun hnil => ?_⟩
    obtain ⟨es, h1, h2⟩ := hkeep.trace
    obtain ⟨es', h3, h4⟩ := hrun.trace
    have hes := h1.trans (congrArg (· ++ es) hnil)
    have hfailed := hfail rfl
    unfold AllocFailed at hfailed
    rw [hes] at hfailed
    exact ⟨es, es', h3.trans (congrArg (· ++ es') hes), hfailed, h2, h4⟩

end Tree

end Ummu
