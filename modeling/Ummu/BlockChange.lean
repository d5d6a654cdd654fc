import Ummu.TableTree

/-!
# Changes of a block

`BlockState` is what an operation on a level block relies on. What the operation does is either
`BlockKeep`, where the block stays linked, or `BlockGone`, where its last node was taken away.
Both compose, and carry over from a child block to the block above.
-/

namespace Ummu

open Lib Machine Cell

/-- The node that links to the block lies outside of it. The local root links to level block 0
only, and no table node does. -/
def LinkedFrom (m : Machine) (pre : NodeRef) (id : Nat) (F : Set Nat) : Prop :=
  (pre = .root ∧ id = 0) ∨ id ≠ 0 ∧ ∃ l i, pre = slotRef l i ∧ i < 512 ∧ l ∈ m.ctx.used ∧ l ∉ F ∧
    (m.node pre).valid = true

/-- Level block `id`, to which `pre` links, holds the cells `sub`. -/
structure BlockState (z : NodeRule) (m : Machine) (pre : NodeRef) (id a : Nat) {d : Nat}
    (sub : SegBlock d) : Prop where
  inv : m.Inv z.zero
  link : LinkTo (m.node pre) id
  type : (m.node pre).type = false
  rep : BlockAt z m.ctx id a sub
  sep : BlockSep id sub
  used : foot id sub ⊆ m.ctx.used
  linked : LinkedFrom m pre id (foot id sub)
  root : 0 ∉ blockIds sub

/-- The block goes from `sub` to `sub'`, and all outside of it stays. -/
structure BlockKeep (z : NodeRule) (E : Set TableError) (m : Machine) (id a : Nat) {d : Nat}
    (sub : SegBlock d) (m' : Machine) (sub' : SegBlock d) : Prop where
  inv : m'.Inv z.zero
  rep : BlockAt z m'.ctx id a sub'
  sep : BlockSep id sub'
  own : Own m.ctx.used (foot id sub) m'.ctx.used (foot id sub')
  frame : ∀ l ∈ m.ctx.used, l ∉ foot id sub → ∀ j < 512,
    m'.ctx.levelNode l j = m.ctx.levelNode l j
  root : m'.root = m.root
  trace : m.Traces (Quiet E) m'

/-- The node after its child block was given back. -/
def unlinkNode (n : TableNode) : TableNode :=
  { n with type := true, nextBlock := false, nextLvOffsetLow := 0, nextLvOffsetHigh := 0,
           nextLvIndex := 0 }

/-- The last node of the block is taken away. The block is given back, unless it is level block 0,
and the node that links to it becomes a leaf. -/
structure BlockGone (z : NodeRule) (E : Set TableError) (m : Machine) (pre : NodeRef) (id : Nat)
    {d : Nat} (sub : SegBlock d) (m' : Machine) : Prop where
  inv : m'.Inv z.zero
  empty : ∀ j < 512, (m'.ctx.levelNode id j).valid = false
  own : Own m.ctx.used (foot id sub) m'.ctx.used (if id = 0 then {0} else ∅)
  node : m'.node pre = unlinkNode (m.node pre)
  frame : ∀ l ∈ m.ctx.used, l ∉ foot id sub → ∀ j < 512, slotRef l j ≠ pre →
    m'.ctx.levelNode l j = m.ctx.levelNode l j
  root : pre ≠ .root → m'.root = m.root
  trace : m.Traces (Quiet E) m'

def BlockRun (z : NodeRule) (E : Set TableError) (m : Machine) (pre : NodeRef) (id a : Nat) {d : Nat}
    (sub : SegBlock d) (m' : Machine) (sub' : SegBlock d) : Prop :=
  (∃ i, sub' i ≠ empty) ∧ BlockKeep z E m id a sub m' sub' ∨
  (∀ i, sub' i = empty) ∧ BlockGone z E m pre id sub m'

section Change

variable {z : NodeRule} {E : Set TableError} {m m' m'' : Machine} {pre : NodeRef} {id a d : Nat}
  {sub sub' sub'' : SegBlock d}

lemma BlockState.keep_refl (h : BlockState z m pre id a sub) :
    BlockKeep z E m id a sub m sub :=
  ⟨h.inv, h.rep, h.sep, Own.refl h.used, fun _ _ _ _ _ => rfl, rfl, Traces.refl _ _⟩

lemma BlockKeep.trans (h : BlockKeep z E m id a sub m' sub')
    (h' : BlockKeep z E m' id a sub' m'' sub'') : BlockKeep z E m id a sub m'' sub'' := by
  refine ⟨h'.inv, h'.rep, h'.sep, h.own.trans h'.own, fun l hl hF j hj => ?_,
    h'.root.trans h.root, h.trace.trans h'.trace⟩
  obtain ⟨h1, h2⟩ := h.own.keeps hl hF
  rw [h'.frame l h1 h2 j hj, h.frame l hl hF j hj]

/-- The node that links to a block that is kept stays as it is. -/
lemma BlockKeep.node (hs : BlockState z m pre id a sub) (h : BlockKeep z E m id a sub m' sub') :
    m'.node pre = m.node pre := by
  rcases hs.linked with ⟨rfl, _⟩ | ⟨_, l, i, rfl, hi, hl, hF, _⟩
  · exact h.root
  · exact h.frame l hl hF i hi

theorem BlockKeep.state (hs : BlockState z m pre id a sub)
    (h : BlockKeep z E m id a sub m' sub') : BlockState z m' pre id a sub' := by
  have hnode := h.node hs
  refine ⟨h.inv, hnode ▸ hs.link, hnode ▸ hs.type, h.rep, h.sep, h.own.sub_after, ?_, fun h0 => ?_⟩
  · rcases hs.linked with h | ⟨h0, l, i, hpre, hi, hl, hF, hv⟩
    · exact Or.inl h
    · obtain ⟨h1, h2⟩ := h.own.keeps hl hF
      exact Or.inr ⟨h0, l, i, hpre, hi, h1, h2, hnode ▸ hv⟩
  · -- level block 0 was in use before, so it does not come up below
    rcases h.own.fresh ⟨hs.inv.ctx.root_used, Or.inr h0⟩ with hid | hid
    · obtain ⟨i, hi⟩ := Set.mem_iUnion.mp h0
      exact h.sep.1 i (Set.mem_singleton_iff.mp hid ▸ hi)
    · exact hs.root hid

lemma BlockKeep.trans_gone (h : BlockKeep z E m id a sub m' sub')
    (hs : BlockState z m pre id a sub) (h' : BlockGone z E m' pre id sub' m'') :
    BlockGone z E m pre id sub m'' := by
  refine ⟨h'.inv, h'.empty, h.own.trans h'.own, ?_, fun l hl hF j hj hne => ?_,
    fun hne => (h'.root hne).trans h.root, h.trace.trans h'.trace⟩
  · rw [h'.node, h.node hs]
  · obtain ⟨h1, h2⟩ := h.own.keeps hl hF
    rw [h'.frame l h1 h2 j hj hne, h.frame l hl hF j hj]

lemma BlockKeep.trans_run (h : BlockKeep z E m id a sub m' sub')
    (hs : BlockState z m pre id a sub) (h' : BlockRun z E m' pre id a sub' m'' sub'') :
    BlockRun z E m pre id a sub m'' sub'' :=
  h'.imp (fun ⟨hne, hk⟩ => ⟨hne, h.trans hk⟩) (fun ⟨he, hg⟩ => ⟨he, h.trans_gone hs hg⟩)

lemma BlockKeep.mono {E' : Set TableError} (h : BlockKeep z E m id a sub m' sub')
    (hE : E ⊆ E') : BlockKeep z E' m id a sub m' sub' :=
  { h with trace := h.trace.mono (Quiet.mono hE) }

lemma BlockRun.mono {E' : Set TableError} (h : BlockRun z E m pre id a sub m' sub')
    (hE : E ⊆ E') : BlockRun z E' m pre id a sub m' sub' :=
  h.imp (fun ⟨hne, hk⟩ => ⟨hne, hk.mono hE⟩)
    (fun ⟨he, hg⟩ => ⟨he, { hg with trace := hg.trace.mono (Quiet.mono hE) }⟩)

lemma footRest_subset (hs : BlockState z m pre id a sub) (i : Fin tableGeometry.slots) :
    footRest id sub i ⊆ m.ctx.used :=
  fun _ hx => hs.used (foot_eq id sub i ▸ Or.inr hx)

lemma ids_subset (hs : BlockState z m pre id a sub) (i : Fin tableGeometry.slots) :
    (sub i).ids ⊆ m.ctx.used := fun _ hx => hs.used (foot_eq id sub i ▸ Or.inl hx)

/-- A change of node `i` and what hangs below it is a change of the block. -/
theorem BlockKeep.of_cell {i : Fin tableGeometry.slots} {cell : SegCell d}
    (hs : BlockState z m pre id a sub) (hinv : m'.Inv z.zero)
    (hcell : CellAt z m'.ctx cell id (m'.ctx.levelNode id i) (tableGeometry.child d a i))
    (hsep : cell.Separate) (hown : Own m.ctx.used (sub i).ids m'.ctx.used cell.ids)
    (hframe : ∀ l ∈ m.ctx.used, l ∉ (sub i).ids → ∀ j : Nat, j < 512 → ¬(l = id ∧ j = i) →
      m'.ctx.levelNode l j = m.ctx.levelNode l j)
    (hroot : m'.root = m.root) (htrace : m.Traces (Quiet E) m') :
    BlockKeep z E m id a sub m' (Function.update sub i cell) := by
  have hrest := footRest_subset hs i
  have hdisj := hs.sep.disjoint_rest i
  have hid : id ∈ m.ctx.used := hs.used (mem_foot.mpr (Or.inl rfl))
  refine ⟨hinv, fun j => ?_, hs.sep.update hsep (hown.disjoint hrest hdisj), ?_, ?_, hroot,
    htrace⟩
  · by_cases hj : j = i
    · rw [hj, Function.update_self]
      exact hcell
    · rw [Function.update_of_ne hj,
        hframe id hid (hs.sep.1 i) j j.isLt (fun h => hj (Fin.ext h.2))]
      refine cellAt_congr (hs.rep j) (fun id' hid' k hk => ?_)
      refine hframe id' (ids_subset hs j hid') (fun hx => ?_) k hk (fun h => ?_)
      · exact Set.disjoint_left.mp (hs.sep.2.1 i j (Ne.symm hj)) hx hid'
      · exact hs.sep.1 j (h.1 ▸ hid')
  · rw [foot_update, foot_eq id sub i]
    exact hown.frame hrest hdisj
  · intro l hl hF j hj
    rw [foot_eq id sub i] at hF
    exact hframe l hl (fun hx => hF (Or.inl hx)) j hj
      (fun h => hF (Or.inr (mem_footRest.mpr (Or.inl h.1))))

/-- Node `i` of level block `l`, with what hangs below it, is the cell. -/
structure NodeState (z : NodeRule) (m : Machine) (l i a : Nat) {d : Nat} (cell : SegCell d) :
    Prop where
  inv : m.Inv z.zero
  mem : l ∈ m.ctx.used
  lt : i < 512
  rep : CellAt z m.ctx cell l (m.ctx.levelNode l i) a
  sep : cell.Separate
  self : l ∉ cell.ids
  used : cell.ids ⊆ m.ctx.used
  root : 0 ∉ cell.ids

/-- The node goes from `cell` to `cell'`, and all outside of it stays. -/
structure NodeKeep (z : NodeRule) (E : Set TableError) (m : Machine) (l i a : Nat) {d : Nat}
    (cell : SegCell d) (m' : Machine) (cell' : SegCell d) : Prop where
  inv : m'.Inv z.zero
  rep : CellAt z m'.ctx cell' l (m'.ctx.levelNode l i) a
  sep : cell'.Separate
  own : Own m.ctx.used cell.ids m'.ctx.used cell'.ids
  frame : ∀ l' ∈ m.ctx.used, l' ∉ cell.ids → ∀ j < 512, ¬(l' = l ∧ j = i) →
    m'.ctx.levelNode l' j = m.ctx.levelNode l' j
  root : m'.root = m.root
  trace : m.Traces (Quiet E) m'

/-- The nodes of a block. -/
lemma BlockState.nodeState (hs : BlockState z m pre id a sub) (i : Fin tableGeometry.slots) :
    NodeState z m id i (tableGeometry.child d a i) (sub i) :=
  ⟨hs.inv, hs.used (mem_foot.mpr (Or.inl rfl)), i.isLt, hs.rep i, hs.sep.2.2 i, hs.sep.1 i,
    ids_subset hs i, fun h0 => hs.root (Set.mem_iUnion.mpr ⟨i, h0⟩)⟩

section Node

variable {l i : Nat} {p : Piece SegInfo}

lemma NodeKeep.trans {cell cell' cell'' : SegCell d} (h : NodeKeep z E m l i a cell m' cell')
    (h' : NodeKeep z E m' l i a cell' m'' cell'') : NodeKeep z E m l i a cell m'' cell'' := by
  refine ⟨h'.inv, h'.rep, h'.sep, h.own.trans h'.own, fun l' hl hF j hj hne => ?_,
    h'.root.trans h.root, h.trace.trans h'.trace⟩
  obtain ⟨h1, h2⟩ := h.own.keeps hl hF
  rw [h'.frame l' h1 h2 j hj hne, h.frame l' hl hF j hj hne]

theorem NodeKeep.state {cell cell' : SegCell d} (hs : NodeState z m l i a cell)
    (h : NodeKeep z E m l i a cell m' cell') : NodeState z m' l i a cell' := by
  obtain ⟨h1, h2⟩ := h.own.keeps hs.mem hs.self
  exact ⟨h.inv, h1, hs.lt, h.rep, h.sep, h2, h.own.sub_after,
    (h.own.keeps hs.inv.ctx.root_used hs.root).2⟩

lemma NodeKeep.block {i : Fin tableGeometry.slots} {cell' : SegCell d}
    (hs : BlockState z m pre id a sub)
    (h : NodeKeep z E m id i (tableGeometry.child d a i) (sub i) m' cell') :
    BlockKeep z E m id a sub m' (Function.update sub i cell') :=
  BlockKeep.of_cell hs h.inv h.rep h.sep h.own h.frame h.root h.trace

/-- What a change of one node needs: a new cell with the same child block. -/
lemma NodeKeep.of_step {cell cell' : SegCell d} {n : TableNode} (hs : NodeState z m l i a cell)
    (h : NodeStep z.zero E m l i n m') (hcell : CellAt z m.ctx cell' l n a)
    (hsep : cell'.Separate) (hids : cell'.ids = cell.ids) :
    NodeKeep z E m l i a cell m' cell' := by
  refine ⟨h.inv, ?_, hsep, ?_, fun l' _ _ j hj hne => h.frame l' j hj hne, h.root, h.trace⟩
  · rw [h.node]
    refine cellAt_congr hcell (fun id' hid' j hj => h.frame id' j hj (fun he => ?_))
    exact hs.self (he.1 ▸ hids ▸ hid')
  · rw [hids, h.used]
    exact Own.refl hs.used

lemma BlockKeep.of_node {i : Fin tableGeometry.slots} {c : SegCell d} {n : TableNode}
    (hs : BlockState z m pre id a sub) (h : NodeStep z.zero E m id i n m')
    (hcell : CellAt z m.ctx c id n (tableGeometry.child d a i)) (hsep : c.Separate)
    (hids : c.ids = (sub i).ids) :
    BlockKeep z E m id a sub m' (Function.update sub i c) :=
  (NodeKeep.of_step (hs.nodeState i) h hcell hsep hids).block hs

/-- The child block of an inner node. -/
theorem NodeState.child (hs : NodeState z m l i a (inner p id sub)) :
    BlockState z m (slotRef l i) id a sub := by
  obtain ⟨h1, h2, _, h4, _, h6⟩ := hs.rep
  have hid : id ≠ 0 := fun h0 => hs.root (mem_foot.mpr (Or.inl h0.symm))
  exact ⟨hs.inv, h4, h2, h6, hs.sep, hs.used, Or.inr ⟨hid, l, i, rfl, hs.lt, hs.mem, hs.self, h1⟩,
    fun h0 => hs.root (Or.inr h0)⟩

/-- A child block that is kept. -/
theorem NodeKeep.of_child (hs : NodeState z m l i a (inner p id sub))
    (h : BlockKeep z E m id a sub m' sub') :
    NodeKeep z E m l i a (inner p id sub) m' (inner p id sub') := by
  have hnode : m'.ctx.levelNode l i = m.ctx.levelNode l i := h.node hs.child
  obtain ⟨h1, h2, h3, h4, h5, _⟩ := hs.rep
  refine ⟨h.inv, ?_, h.sep, h.own, fun l' hl hF j hj _ => h.frame l' hl hF j hj, h.root, h.trace⟩
  rw [hnode]
  exact ⟨h1, h2, h3, h4, h5, h.rep⟩

/-- A child block that is given back leaves a leaf. -/
theorem NodeKeep.of_child_gone (hs : NodeState z m l i a (inner p id sub))
    (h : BlockGone z E m (slotRef l i) id sub m') :
    NodeKeep z E m l i a (inner p id sub) m' (leaf p) := by
  have hnode : m'.ctx.levelNode l i = unlinkNode (m.ctx.levelNode l i) := h.node
  have hid : id ≠ 0 := fun h0 => hs.root (mem_foot.mpr (Or.inl h0.symm))
  obtain ⟨h1, _, h3, _, _, _⟩ := hs.rep
  have hown := h.own
  rw [if_neg hid] at hown
  refine ⟨h.inv, ?_, trivial, hown, fun l' hl hF j hj hne => ?_,
    h.root (fun h => by cases h), h.trace⟩
  · rw [hnode]
    exact ⟨h1, rfl, h3.relink true false 0 0 0⟩
  · exact h.frame l' hl hF j hj (fun he => hne (slotRef_inj hj hs.lt he))

theorem NodeKeep.of_child_run (hs : NodeState z m l i a (inner p id sub))
    (h : BlockRun z E m (slotRef l i) id a sub m' sub') :
    NodeKeep z E m l i a (inner p id sub) m' (mkInner p id sub') := by
  rcases h with ⟨hne, hk⟩ | ⟨he, hg⟩
  · rw [mkInner_of_ne hne]
    exact NodeKeep.of_child hs hk
  · rw [mkInner_of_empty he]
    exact NodeKeep.of_child_gone hs hg

end Node

section Child

variable {d : Nat} {sub : SegBlock (d + 1)} {i : Fin tableGeometry.slots} {p : Piece SegInfo}
  {id' : Nat} {sub' sub'' : SegBlock d}

theorem BlockState.child (hs : BlockState z m pre id a sub) (hi : sub i = inner p id' sub') :
    BlockState z m (slotRef id i) id' (tableGeometry.child (d + 1) a i) sub' :=
  (hi ▸ hs.nodeState i).child

theorem BlockKeep.of_child (hs : BlockState z m pre id a sub) (hi : sub i = inner p id' sub')
    (h : BlockKeep z E m id' (tableGeometry.child (d + 1) a i) sub' m' sub'') :
    BlockKeep z E m id a sub m' (Function.update sub i (inner p id' sub'')) := by
  have hnode := NodeKeep.of_child (hi ▸ hs.nodeState i) h
  exact NodeKeep.block hs (hi ▸ hnode)

theorem BlockKeep.of_child_run (hs : BlockState z m pre id a sub) (hi : sub i = inner p id' sub')
    (h : BlockRun z E m (slotRef id i) id' (tableGeometry.child (d + 1) a i) sub' m' sub'') :
    BlockKeep z E m id a sub m' (Function.update sub i (mkInner p id' sub'')) := by
  have hnode := NodeKeep.of_child_run (hi ▸ hs.nodeState i) h
  exact NodeKeep.block hs (hi ▸ hnode)

end Child

end Change

end Ummu
