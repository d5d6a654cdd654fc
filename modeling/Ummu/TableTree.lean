import Ummu.LevelAlloc
import Ummu.SegMng
import Ummu.Lib.Footprint

/-!
# The tree in the table

`BlockAt` says that the nodes of a level block, with all that hangs below them, are a given block
of cells. An operation on a level block either keeps it (`BlockKeep`), or takes its last node away
and gives it back (`BlockGone`).
-/

namespace Ummu

open Lib Machine

abbrev SegCell (d : Nat) := Cell SegInfo tableGeometry.slots d
abbrev SegBlock (d : Nat) := Block SegInfo tableGeometry.slots d

/-- The token fields of a node. -/
@[ext] structure NodeTokens where
  nonce : BitVec 2
  tokenVal0 : BitVec 32
  tokenVal1 : BitVec 32

def TableNode.tokens (n : TableNode) : NodeTokens := ⟨n.nonce, n.tokenVal0, n.tokenVal1⟩

/-- What is known of the nodes besides the pieces: under `zero`, nodes that are not valid have no
nonce; the tokens of a node with a piece are some that `holds` allows; and under `flags`,
`next_block` says whether the child is in another mapt block. -/
structure NodeRule where
  zero : Prop
  flags : Prop
  holds : Piece SegInfo → NodeTokens → Prop

/-- The nonce is the token count of the record. It counts for nodes with a token check, and under
`z` for all nodes. -/
def NodeRule.ofRecord (z : Prop) : NodeRule where
  zero := z
  flags := True
  holds p k := p.label.tokenCheck = true ∨ z → k.nonce.toNat = p.label.tokenCount.toNat

/-- The node has the attributes of the record, the nonce aside. -/
structure HasAttrs (n : TableNode) (s : SegInfo) : Prop where
  permission : n.permission = s.permission.setWidth 6
  eBit : n.eBit = s.eBit.getLsbD 0
  tokenCheck : n.tokenCheck = s.tokenCheck
  tokens : s.tokenCheck = true → n.tokenVal0 = s.tokenVal0 ∧ n.tokenVal1 = s.tokenVal1

/-- In the slot of depth `d` at `a`, the node denotes the piece. -/
structure Denotes (z : NodeRule) (d a : Nat) (n : TableNode) (p : Piece SegInfo) : Prop where
  base : p.base = a + n.base
  limit : p.limit = a + n.limit
  base_le : n.base ≤ n.limit
  limit_lt : n.limit < tableGeometry.span d
  attrs : HasAttrs n p.label
  tokens : z.holds p n.tokens

/-- Node `n` of level block `l`, with what hangs below it, is the cell in the slot at `a`. -/
def CellAt (z : NodeRule) (c : TableCtx) :
    {d : Nat} → Cell SegInfo tableGeometry.slots d → Nat → TableNode → Nat → Prop
  | _, .empty, _, n, _ => n.valid = false
  | d, .leaf p, _, n, a => n.valid = true ∧ n.type = true ∧ Denotes z d a n p
  | d + 1, .inner p id sub, l, n, a => n.valid = true ∧ n.type = false ∧
      Denotes z (d + 1) a n p ∧ LinkTo n id ∧
      (z.flags → n.nextBlock = decide (id / 4 ≠ l / 4)) ∧
      ∀ i : Fin tableGeometry.slots,
        CellAt z c (sub i) id (c.levelNode id i) (tableGeometry.child d a i)

def BlockAt (z : NodeRule) (c : TableCtx) (id a : Nat) {d : Nat} (sub : SegBlock d) : Prop :=
  ∀ i : Fin tableGeometry.slots,
    CellAt z c (sub i) id (c.levelNode id i) (tableGeometry.child d a i)

/-- A block and all below it. -/
def foot (id : Nat) {d : Nat} (sub : SegBlock d) : Set Nat := {id} ∪ Cell.blockIds sub

/-- No two nodes of the block and below share a child block, and none links back to the block. -/
def BlockSep (id : Nat) {d : Nat} (sub : SegBlock d) : Prop :=
  (∀ i, id ∉ (sub i).ids) ∧ (∀ i j, i ≠ j → Disjoint (sub i).ids (sub j).ids) ∧
    ∀ i, (sub i).Separate

section Cells

variable {z : NodeRule} {c c' : TableCtx} {d l a : Nat} {n : TableNode}

/-- A cell depends on the nodes of its own blocks only. -/
lemma cellAt_congr {cell : SegCell d} (h : CellAt z c cell l n a)
    (hc : ∀ id ∈ cell.ids, ∀ j < 512, c'.levelNode id j = c.levelNode id j) :
    CellAt z c' cell l n a := by
  induction cell generalizing l n a with
  | empty => exact h
  | leaf p => exact h
  | inner p id sub ih =>
    obtain ⟨h1, h2, h3, h4, h5, h6⟩ := h
    refine ⟨h1, h2, h3, h4, h5, fun i => ?_⟩
    rw [hc id (Or.inl rfl) i i.isLt]
    exact ih i (h6 i) (fun id' hid' => hc id' (Or.inr (Set.mem_iUnion.mpr ⟨i, hid'⟩)))

lemma cellAt_valid {cell : SegCell d} (h : CellAt z c cell l n a) :
    n.valid = false ↔ cell = .empty := by
  cases cell with
  | empty => exact ⟨fun _ => rfl, fun _ => h⟩
  | leaf p =>
    refine ⟨fun hv => ?_, fun he => by cases he⟩
    rw [h.1] at hv
    cases hv
  | inner p id sub =>
    refine ⟨fun hv => ?_, fun he => by cases he⟩
    rw [h.1] at hv
    cases hv

lemma cellAt_own {cell : SegCell d} {p : Piece SegInfo} (h : CellAt z c cell l n a)
    (hp : cell.own = some p) : n.valid = true ∧ Denotes z d a n p := by
  cases cell with
  | empty => cases hp
  | leaf q =>
    obtain rfl := Option.some.inj hp
    exact ⟨h.1, h.2.2⟩
  | inner q id sub =>
    obtain rfl := Option.some.inj hp
    exact ⟨h.1, h.2.2.1⟩

/-- What a node denotes does not depend on its link. -/
lemma Denotes.relink {p : Piece SegInfo} (h : Denotes z d a n p) (type nextBlock : Bool)
    (low : BitVec 20) (high : BitVec 10) (index : BitVec 16) :
    Denotes z d a { n with
      type := type, nextBlock := nextBlock, nextLvOffsetLow := low, nextLvOffsetHigh := high,
      nextLvIndex := index } p :=
  ⟨h.base, h.limit, h.base_le, h.limit_lt, ⟨h.attrs.permission, h.attrs.eBit, h.attrs.tokenCheck,
    h.attrs.tokens⟩, h.tokens⟩

lemma Denotes.base_eq {p : Piece SegInfo} {b x : Nat} (h : Denotes z d a n p) (hb : b = a + x) :
    n.base = x ↔ p.base = b := by
  have := h.base
  omega

lemma Denotes.limit_le {p : Piece SegInfo} {e y : Nat} (h : Denotes z d a n p) (he : e = a + y) :
    n.limit ≤ y ↔ p.limit ≤ e := by
  have := h.limit
  omega

end Cells

section Foot

variable {d id : Nat} {sub : SegBlock d} {i : Fin tableGeometry.slots} {cell : SegCell d}

/-- What `foot` counts besides child `i`. -/
def footRest (id : Nat) {d : Nat} (sub : SegBlock d) (i : Fin tableGeometry.slots) : Set Nat :=
  {id} ∪ ⋃ j, ⋃ (_ : j ≠ i), (sub j).ids

lemma mem_foot {x : Nat} : x ∈ foot id sub ↔ x = id ∨ ∃ j, x ∈ (sub j).ids := by
  simp only [foot, Cell.blockIds, Set.mem_union, Set.mem_singleton_iff, Set.mem_iUnion]

lemma mem_footRest {x : Nat} :
    x ∈ footRest id sub i ↔ x = id ∨ ∃ j, j ≠ i ∧ x ∈ (sub j).ids := by
  simp only [footRest, Set.mem_union, Set.mem_singleton_iff, Set.mem_iUnion, exists_prop]

lemma foot_update (id : Nat) (sub : SegBlock d) (i : Fin tableGeometry.slots) (cell : SegCell d) :
    foot id (Function.update sub i cell) = cell.ids ∪ footRest id sub i := by
  ext x
  rw [mem_foot, Set.mem_union, mem_footRest]
  constructor
  · rintro (hx | ⟨j, hj⟩)
    · exact Or.inr (Or.inl hx)
    · by_cases hji : j = i
      · rw [hji, Function.update_self] at hj
        exact Or.inl hj
      · rw [Function.update_of_ne hji] at hj
        exact Or.inr (Or.inr ⟨j, hji, hj⟩)
  · rintro (hx | hx | ⟨j, hji, hj⟩)
    · exact Or.inr ⟨i, by rwa [Function.update_self]⟩
    · exact Or.inl hx
    · exact Or.inr ⟨j, by rwa [Function.update_of_ne hji]⟩

lemma foot_eq (id : Nat) (sub : SegBlock d) (i : Fin tableGeometry.slots) :
    foot id sub = (sub i).ids ∪ footRest id sub i := by
  have h := foot_update id sub i (sub i)
  rwa [Function.update_eq_self] at h

lemma BlockSep.disjoint_rest (h : BlockSep id sub) (i : Fin tableGeometry.slots) :
    Disjoint (sub i).ids (footRest id sub i) := by
  refine Set.disjoint_left.mpr (fun x hx hr => ?_)
  rcases mem_footRest.mp hr with rfl | ⟨j, hji, hj⟩
  · exact h.1 i hx
  · exact Set.disjoint_left.mp (h.2.1 i j (Ne.symm hji)) hx hj

lemma BlockSep.update (h : BlockSep id sub) (hs : cell.Separate)
    (hd : Disjoint cell.ids (footRest id sub i)) : BlockSep id (Function.update sub i cell) := by
  have hout : ∀ j, j ≠ i → Disjoint cell.ids (sub j).ids := fun j hj =>
    Set.disjoint_left.mpr (fun x hx hxj =>
      Set.disjoint_left.mp hd hx (mem_footRest.mpr (Or.inr ⟨j, hj, hxj⟩)))
  refine ⟨fun j => ?_, fun j k hjk => ?_, fun j => ?_⟩
  · by_cases hj : j = i
    · rw [hj, Function.update_self]
      exact fun hx => Set.disjoint_left.mp hd hx (mem_footRest.mpr (Or.inl rfl))
    · rw [Function.update_of_ne hj]
      exact h.1 j
  · by_cases hj : j = i
    · rw [hj, Function.update_self, Function.update_of_ne (fun hk => hjk (hj.trans hk.symm))]
      exact hout k (fun hk => hjk (hj.trans hk.symm))
    · rw [Function.update_of_ne hj]
      by_cases hk : k = i
      · rw [hk, Function.update_self]
        exact (hout j hj).symm
      · rw [Function.update_of_ne hk]
        exact h.2.1 j k hjk
  · by_cases hj : j = i
    · rw [hj, Function.update_self]
      exact hs
    · rw [Function.update_of_ne hj]
      exact h.2.2 j

end Foot

end Ummu
