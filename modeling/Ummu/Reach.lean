import Ummu.TableTree

/-!
# Reachable nodes

The nodes that are reached from a level block through nodes of type 0, with the address of their
slot. Those of a block that holds cells are the nodes of the tree.
-/

namespace Ummu

open Lib Machine Cell

/-- A node or a level block: its level, its position in the mapt blocks, and the first address that
it covers. -/
structure Place where
  level : Nat
  blk : Nat
  off : Nat
  addr : Nat

/-- Level block 0. -/
def rootPlace : Place := ⟨0, 0, 0, 0⟩

/-- Slot `i` of a level block. -/
def Place.slot (b : Place) (i : Nat) : Place :=
  ⟨b.level, b.blk, b.off + i, b.addr + i <<< (gMaptRangeBits b.level).2⟩

/-- The node that a path of slots leads to from level block `b`. All nodes before it are valid, with
type 0. -/
def TableCtx.reach (c : TableCtx) : Place → List (Fin 512) → Option Place
  | _, [] => none
  | b, [i] => some (b.slot i)
  | b, i :: j :: path =>
    let p := b.slot i
    let n := c.node p.blk p.off
    if n.valid = true ∧ n.type = false then
      c.reach ⟨b.level + 1, n.nextLvIndex.toNat, n.lvOffset, p.addr⟩ (j :: path)
    else none

/-- The place of the level block with the cells of depth `d`. -/
def blockPlace (d id a : Nat) : Place := ⟨levelOf (d + 1), id / 4, 512 * (id % 4), a⟩

section Reach

variable {z : NodeRule} {c : TableCtx} {d id a : Nat} {sub : SegBlock d} {q : Place}
  {p : Piece SegInfo}

lemma blockPlace_slot (hd : d ≤ 3) (id a i : Nat) :
    (blockPlace d id a).slot i =
      ⟨levelOf (d + 1), id / 4, 512 * (id % 4) + i, tableGeometry.child d a i⟩ := by
  simp only [blockPlace, Place.slot, gMaptRangeBits_levelOf hd, Geometry.child, span_eq,
    Nat.shiftLeft_eq]

/-- The step of `reach` into the child block of an inner node. -/
lemma reach_inner {id' : Nat} {sub : SegBlock (d + 1)} {sub' : SegBlock d} (hd : d + 1 ≤ 3)
    (h : BlockAt z c id a sub) {i : Fin tableGeometry.slots} (hi : sub i = inner p id' sub')
    (j : Fin tableGeometry.slots) (path : List (Fin tableGeometry.slots)) :
    BlockAt z c id' (tableGeometry.child (d + 1) a i) sub' ∧
      c.reach (blockPlace (d + 1) id a) (i :: j :: path) =
        c.reach (blockPlace d id' (tableGeometry.child (d + 1) a i)) (j :: path) := by
  have hrep := h i
  rw [hi] at hrep
  obtain ⟨h1, h2, _, h4, _, h6⟩ := hrep
  refine ⟨h6, ?_⟩
  have hlevel : levelOf (d + 2) + 1 = levelOf (d + 1) := by
    simp only [levelOf, maxLevelIndex]
    omega
  rw [TableCtx.reach, blockPlace_slot hd]
  change (if (c.levelNode id i).valid = true ∧ (c.levelNode id i).type = false then _ else _) = _
  rw [if_pos ⟨h1, h2⟩]
  change c.reach ⟨levelOf (d + 2) + 1, (c.levelNode id i).nextLvIndex.toNat,
    (c.levelNode id i).lvOffset, _⟩ _ = _
  rw [hlevel, h4.1, h4.2]
  rfl

/-- What is reached in a block that holds cells is a node of the tree. -/
theorem reach_cell (hd : d ≤ 3) (h : BlockAt z c id a sub) {i : Fin tableGeometry.slots}
    {path : List (Fin tableGeometry.slots)} (hq : c.reach (blockPlace d id a) (i :: path) = some q) :
    ∃ (d' l j a' : Nat) (cell : SegCell d'), d' + path.length = d ∧ l ∈ foot id sub ∧ j < 512 ∧
      q = ⟨levelOf (d' + 1), l / 4, 512 * (l % 4) + j, a'⟩ ∧
      CellAt z c cell l (c.levelNode l j) a' ∧ cell.own = (sub i).pieceAt path ∧
      cell.linkAt [] = (sub i).linkAt path := by
  induction path generalizing d id a i with
  | nil =>
    rw [TableCtx.reach, blockPlace_slot hd] at hq
    obtain rfl := Option.some.inj hq
    refine ⟨d, id, i, _, sub i, rfl, mem_foot.mpr (Or.inl rfl), i.isLt, rfl, h i, ?_, rfl⟩
    cases sub i <;> rfl
  | cons j path ih =>
    have hrep := h i
    cases hc : sub i with
    | empty =>
      rw [hc] at hrep
      have hv : (c.node (id / 4) (512 * (id % 4) + i)).valid = false := hrep
      rw [TableCtx.reach, blockPlace_slot hd] at hq
      simp only [hv] at hq
      cases hq
    | leaf p =>
      rw [hc] at hrep
      have ht : (c.node (id / 4) (512 * (id % 4) + i)).type = true := hrep.2.1
      rw [TableCtx.reach, blockPlace_slot hd] at hq
      simp [ht] at hq
    | @inner d p id' sub' =>
      obtain ⟨hblock, hgo⟩ := reach_inner hd h hc j path
      rw [hgo] at hq
      obtain ⟨d', l, k, a', cell, h1, h2, h3, h4, h5, h6, h7⟩ := ih (by omega) hblock hq
      refine ⟨d', l, k, a', cell, by rw [List.length_cons]; omega, ?_, h3, h4, h5, h6, h7⟩
      rw [mem_foot]
      refine Or.inr ⟨i, ?_⟩
      rw [hc]
      exact h2

/-- Every node of the tree with a piece is reached. -/
theorem reach_of_piece (hd : d ≤ 3) (h : BlockAt z c id a sub) {i : Fin tableGeometry.slots}
    {path : List (Fin tableGeometry.slots)} (hp : (sub i).pieceAt path = some p) :
    ∃ q, c.reach (blockPlace d id a) (i :: path) = some q := by
  induction path generalizing d id a i with
  | nil => exact ⟨_, rfl⟩
  | cons j path ih =>
    cases hc : sub i with
    | empty =>
      rw [hc] at hp
      cases hp
    | leaf p =>
      rw [hc] at hp
      cases hp
    | @inner d p id' sub' =>
      rw [hc] at hp
      obtain ⟨hblock, hgo⟩ := reach_inner hd h hc j path
      obtain ⟨q, hq⟩ := ih (by omega) hblock hp
      exact ⟨q, hgo.trans hq⟩

end Reach

end Ummu
