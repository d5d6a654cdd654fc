import Ummu.BlockOps

/-!
# Clearing a node

`ummu_swap_next_level_node` pulls the piece of the first child up, and `ummu_table_clear_node`
takes the piece of a node away.
-/

namespace Ummu

open Lib Machine Cell

section Pull

variable {z : NodeRule} {E : Set TableError} {m m' : Machine} {pre : NodeRef} {id a d : Nat}
  {sub : SegBlock d} {i : Fin tableGeometry.slots} {p : Piece SegInfo}

/-- A step that only adds to the trace keeps the block. -/
lemma BlockState.keep_trace (hs : BlockState z m pre id a sub) (hctx : m'.ctx = m.ctx)
    (hmaps : m'.maps = m.maps) (hroot : m'.root = m.root) (htrace : m.Traces (Quiet E) m') :
    BlockKeep z E m id a sub m' sub := by
  refine ⟨⟨hctx ▸ hs.inv.ctx, hmaps ▸ hs.inv.maps⟩, hctx ▸ hs.rep, hs.sep, ?_,
    fun l _ _ j _ => by rw [hctx], hroot, htrace⟩
  rw [hctx]
  exact Own.refl hs.used

lemma slot_lt (id : Nat) {i : Nat} (hi : i < 512) : 512 * (id % 4) + i < 2048 := by omega

lemma BlockState.keep_access (hs : BlockState z m pre id a sub) {j : Nat} (hj : j < 512)
    (b : MaptBlock) (k : Nat) : BlockKeep z E m id a sub (m.access b (512 * (k % 4) + j)) sub :=
  hs.keep_trace rfl rfl rfl (Traces.log (slot_lt k hj))

lemma levelOf_le (d : Nat) : levelOf (d + 1) ≤ maxLevelIndex := by
  simp only [levelOf]
  omega

lemma BlockState.keep_range (hs : BlockState z m pre id a sub) :
    BlockKeep z E m id a sub (m.log (.rangeBits (levelOf (d + 1)))) sub :=
  hs.keep_trace rfl rfl rfl (Traces.log (levelOf_le d))

lemma accesses_spec (b : MaptBlock) (k n : Nat) (hn : n ≤ 512) (m : Machine) :
    (accesses b (512 * (k % 4)) n m).ctx = m.ctx ∧
    (accesses b (512 * (k % 4)) n m).maps = m.maps ∧
    (accesses b (512 * (k % 4)) n m).root = m.root ∧
    m.Traces (Quiet E) (accesses b (512 * (k % 4)) n m) := by
  induction n with
  | zero => exact ⟨rfl, rfl, rfl, Traces.refl _ _⟩
  | succ n ih =>
    obtain ⟨h1, h2, h3, h4⟩ := ih (by omega)
    have hlast : accesses b (512 * (k % 4)) (n + 1) m =
        (accesses b (512 * (k % 4)) n m).access b (512 * (k % 4) + n) := by
      simp only [accesses, List.range_succ, List.foldl_append, List.foldl_cons, List.foldl_nil]
    rw [hlast]
    exact ⟨h1, h2, h3, h4.trans (Traces.log (slot_lt k (by omega)))⟩

/-- The node of an inner cell after `ummu_swap_node_info` denotes the piece of the child. -/
lemma denotes_swap {n n' : TableNode} {q : Piece SegInfo} {j : Nat} (hd : d ≤ 2) (hj : j < 512)
    (h : Denotes z d (tableGeometry.child d a j) n' q) :
    Denotes z (d + 1) a (applyStores (swapStores n' j (levelOf (d + 2))) n) q := by
  have hlevel : levelOf (d + 2) + 1 = levelOf (d + 1) := by
    simp only [levelOf, maxLevelIndex]
    omega
  have hspan : tableGeometry.span (d + 1) = 512 * tableGeometry.span d :=
    tableGeometry.span_succ d
  have hle := span_le (d := d + 1) (by omega)
  have hmul : (j + 1) * tableGeometry.span d ≤ 512 * tableGeometry.span d :=
    Nat.mul_le_mul_right _ hj
  have hmul' : (j + 1) * tableGeometry.span d = j * tableGeometry.span d + tableGeometry.span d :=
    by ring
  have hlt := h.limit_lt
  have hbl := h.base_le
  have hb := or_slot (d := d) (i := j) (by omega) (show n'.base < _ by omega)
  have hl := or_slot (d := d) (i := j) (by omega) h.limit_lt
  have hbase : (applyStores (swapStores n' j (levelOf (d + 2))) n).base =
      j * tableGeometry.span d + n'.base := by
    change addrFull (tableAddrLow _) (tableAddrHigh _) = _
    rw [addrFull_tableAddr, hlevel, hb]
    exact Nat.mod_eq_of_lt (by omega)
  have hlimit : (applyStores (swapStores n' j (levelOf (d + 2))) n).limit =
      j * tableGeometry.span d + n'.limit := by
    change addrFull (tableAddrLow _) (tableAddrHigh _) = _
    rw [addrFull_tableAddr, hlevel, hl]
    exact Nat.mod_eq_of_lt (by omega)
  refine ⟨?_, ?_, by omega, by omega, ⟨h.attrs.permission, h.attrs.eBit, h.attrs.tokenCheck,
    h.attrs.tokens⟩, h.tokens⟩
  · rw [hbase, h.base, Geometry.child]
    omega
  · rw [hlimit, h.limit, Geometry.child]
    omega

/-- The first child in use is the one that the loop of `ummu_swap_next_level_node` stops at. -/
lemma firstIndex_first (hrep : BlockAt z m.ctx id a sub) (hlow : ∀ j, j < i → sub j = empty)
    (hne : sub i ≠ empty) :
    firstIndex (fun j => (m.ctx.node (id / 4) (512 * (id % 4) + j)).valid) 0 maxMaptEntryIndex =
      some i.val := by
  refine firstIndex_eq_some (Nat.zero_le _) ?_ ?_ (fun j _ hj => ?_)
  · rw [Nat.zero_add]
    exact i.isLt
  · have hv := mt (cellAt_valid (hrep i)).mp hne
    rwa [Bool.not_eq_false] at hv
  · have hj' : j < tableGeometry.slots := lt_trans hj i.isLt
    exact (cellAt_valid (hrep ⟨j, hj'⟩)).mpr (hlow ⟨j, hj'⟩ (Fin.lt_def.mpr hj))

lemma applyStores_swapStores (next n : TableNode) (idx level : Nat) :
    (applyStores (swapStores next idx level) n).valid = n.valid ∧
    (applyStores (swapStores next idx level) n).type = n.type ∧
    (applyStores (swapStores next idx level) n).nextBlock = n.nextBlock ∧
    (applyStores (swapStores next idx level) n).nextLvIndex = n.nextLvIndex ∧
    (applyStores (swapStores next idx level) n).lvOffset = n.lvOffset := by
  simp only [applyStores, swapStores, List.foldl_cons, List.foldl_nil, TableNode.lvOffset,
    and_self]

lemma NodeState.keep_trace {l i : Nat} {cell : SegCell d} (hs : NodeState z m l i a cell)
    (hctx : m'.ctx = m.ctx) (hmaps : m'.maps = m.maps) (hroot : m'.root = m.root)
    (htrace : m.Traces (Quiet E) m') : NodeKeep z E m l i a cell m' cell := by
  refine ⟨⟨hctx ▸ hs.inv.ctx, hmaps ▸ hs.inv.maps⟩, ?_, hs.sep, ?_,
    fun l' _ _ j _ _ => by rw [hctx], hroot, htrace⟩
  · rw [hctx]
    exact hs.rep
  · rw [hctx]
    exact Own.refl hs.used

/-- The piece of the first child goes up into the node, and the child still holds it. -/
lemma swap_keep {l i : Nat} {j : Fin tableGeometry.slots} {q : Piece SegInfo} (hd : d ≤ 2)
    (hs : NodeState z m l i a (inner p id sub)) (hq : (sub j).own = some q)
    {m₁ : Machine} (hctx : m₁.ctx = m.ctx) (hmaps : m₁.maps = m.maps) (hroot : m₁.root = m.root)
    (htrace : m.Traces (Quiet E) m₁) {m₂ : Machine}
    (hm₂ : m₂ = m₁.stores (slotRef l i) (swapStores (m.ctx.levelNode id j) j (levelOf (d + 2)))) :
    NodeKeep z E m l i a (inner p id sub) m₂ (inner q id sub) ∧
      ∀ l' k, k < 512 → ¬(l' = l ∧ k = i) → m₂.ctx.levelNode l' k = m.ctx.levelNode l' k := by
  have hkeep := hs.keep_trace hctx hmaps hroot htrace
  have hs₁ := hkeep.state hs
  obtain ⟨h1, h2, _, h4, h5, h6⟩ := hs₁.rep
  obtain ⟨_, hden⟩ := cellAt_own (h6 j) hq
  rw [hctx] at hden
  obtain ⟨s1, s2, s3, s4, s5⟩ := applyStores_swapStores (m.ctx.levelNode id j)
    (m₁.ctx.levelNode l i) j (levelOf (d + 2))
  have hstep := stores_step (E := E) hs₁.inv hs₁.mem hs₁.lt
    (swapStores (m.ctx.levelNode id j) j (levelOf (d + 2))) s1
    (fun _ hf => absurd (hf.symm.trans (s1.trans h1)) Bool.false_ne_true)
  rw [← hm₂] at hstep
  refine ⟨hkeep.trans (NodeKeep.of_step hs₁ hstep ?_ hs₁.sep rfl), fun l' k hk hne => ?_⟩
  · exact ⟨s1.trans h1, s2.trans h2, denotes_swap hd j.isLt hden,
      ⟨(congrArg BitVec.toNat s4).trans h4.1, s5.trans h4.2⟩, fun hf => s3.trans (h5 hf), h6⟩
  · rw [hstep.frame l' k hk hne, hctx]

lemma childOff_eq {r : NodeRef} (h : LinkTo (m.node r) id) : m.childOff r = 512 * (id % 4) := h.2

lemma childBlk_eq {r : NodeRef} (h : LinkTo (m.node r) id) : m.childBlk r = id / 4 := h.1

/-- One level of `ummu_swap_next_level_node`: the piece of the first child comes up, and the child
gives it up in turn. -/
lemma swap_step {l i : Nat} {j : Fin tableGeometry.slots} {q : Piece SegInfo} (hd : d ≤ 2)
    (hs : NodeState z m l i a (inner p id sub)) (hlow : ∀ k, k < j → sub k = empty)
    (hq : (sub j).own = some q) :
    ∃ m₂, NodeKeep z E m l i a (inner p id sub) m₂ (inner q id sub) ∧
      (∀ l' k, k < 512 → ¬(l' = l ∧ k = i) → m₂.ctx.levelNode l' k = m.ctx.levelNode l' k) ∧
      ummuSwapNextLevelNode (d + 2) (slotRef l i) m =
        if (m₂.ctx.levelNode id j).type = false then
          ummuSwapNextLevelNode (d + 1) (slotRef id j) m₂
        else releaseEmpty (slotRef l i) id (stepEntryCnt (id / 4) (id % 4) false
          (m₂.stores (slotRef id j)
            [fun n => { n with valid := false }, fun n => { n with nonce := 0 }])) := by
  have hchild := hs.child
  obtain ⟨b, hb⟩ := hs.inv.ctx.mapped_of_used (hchild.used (mem_foot.mpr (Or.inl rfl)))
  have hfirst := firstIndex_first hchild.rep hlow (by
    intro he
    rw [he] at hq
    cases hq)
  obtain ⟨h1, h2, h3, h4⟩ := accesses_spec (E := E) b id (j + 1) j.isLt m
  have hlevel : levelOf (d + 2) + 1 ≤ maxLevelIndex := by
    simp only [levelOf, maxLevelIndex]
    omega
  let m₁ := (accesses b (512 * (id % 4)) (j + 1) m).log (.rangeBits (levelOf (d + 2) + 1))
  have hnode : m₁.node (.slot (id / 4) (512 * (id % 4) + j)) = m.ctx.levelNode id j := by
    rw [← h1]
    rfl
  have hidx : 512 * (id % 4) / maxMaptEntryIndex % 2 ^ 8 = id % 4 := by
    simp only [maxMaptEntryIndex]
    omega
  obtain ⟨hkeep, hframe⟩ := swap_keep hd hs hq (show m₁.ctx = m.ctx from h1) h2 h3
    (h4.trans (Traces.log hlevel)) rfl
  refine ⟨_, hkeep, hframe, ?_⟩
  rw [ummuSwapNextLevelNode]
  simp only [childBlk_eq hchild.link, childOff_eq hchild.link, hb, hfirst, hidx]
  rw [show (accesses b (512 * (id % 4)) (j + 1) m).log (.rangeBits (levelOf (d + 1 + 1) + 1)) = m₁
    from rfl, hnode]
  rfl

/-- One level block below node `i` of level block `l` was given back, and the node that linked to it
became a leaf without a link. -/
def Freed (m : Machine) (l i : Nat) {d : Nat} (cell : SegCell d) (m' : Machine) : Prop :=
  ∃ id ∈ cell.ids, ∃ l' i', i' < 512 ∧ (l' = l ∧ i' = i ∨ l' ∈ cell.ids) ∧
    (m.ctx.levelNode l' i').type = false ∧ LinkTo (m.ctx.levelNode l' i') id ∧
    m'.ctx.used = m.ctx.used \ {id} ∧
    m'.ctx.levelNode l' i' = unlinkNode (m'.ctx.levelNode l' i')

/-- `ummu_swap_next_level_node` replaces the piece of an inner node by the first one below it. -/
theorem pull_node {d : Nat} {c c' : SegCell d} (h : Pull c c') (hd : d ≤ 3) :
    ∀ (m : Machine) (l i a : Nat), NodeState z m l i a c →
      NodeKeep z E m l i a c (ummuSwapNextLevelNode (d + 1) (slotRef l i) m) c' ∧
      ((ummuSwapNextLevelNode (d + 1) (slotRef l i) m).ctx.used = m.ctx.used ∨
        Freed m l i c (ummuSwapNextLevelNode (d + 1) (slotRef l i) m)) := by
  induction h with
  | @leaf d p p' id sub j hlow hj =>
    intro m l i a hs
    obtain ⟨m₂, hswap, hframe, hgo⟩ := swap_step (E := E) (by omega) hs hlow
      (show (sub j).own = some p' by rw [hj]; rfl)
    have hs₂ := hswap.state hs
    have hchild := hs₂.child
    have hleaf := hchild.rep j
    rw [hj] at hleaf
    have hvac := vacate_run (E := E) hchild hj
      [fun n => { n with valid := false }, fun n => { n with nonce := 0 }] rfl rfl
    rw [hgo, if_neg (by rw [hleaf.2.1]; simp)]
    refine ⟨hswap.trans (NodeKeep.of_child_run hs₂ hvac), ?_⟩
    have hused : m₂.ctx.used = m.ctx.used := by
      rw [hswap.own.eq]
      exact Set.sdiff_union_of_subset hs.used
    rcases hvac with ⟨_, hk⟩ | ⟨he, hg⟩
    · have hids : foot id (Function.update sub j empty) = foot id sub := by
        rw [foot_update, foot_eq id sub j, hj, ids_leaf, ids_empty]
      refine Or.inl ?_
      have hown := hk.own.eq
      rw [hids, Set.sdiff_union_of_subset hchild.used] at hown
      exact hown.trans hused
    · have hid : id ≠ 0 := fun h0 => hs.root (mem_foot.mpr (Or.inl h0.symm))
      have hown := hg.own.eq
      have hsub : foot id sub = {id} := by
        rw [← foot_empty he, foot_update,
          foot_eq id sub j, hj, ids_leaf, ids_empty]
      rw [if_neg hid, hsub, Set.union_empty, hused] at hown
      obtain ⟨_, h2, _, h4, _, _⟩ := hs.rep
      refine Or.inr ⟨id, Or.inl rfl, l, i, hs.lt, Or.inl ⟨rfl, rfl⟩, h2, h4, hown, ?_⟩
      have hnode : _ = unlinkNode (m₂.ctx.levelNode l i) := hg.node
      exact hnode.trans (congrArg unlinkNode hnode).symm
  | @inner d p p' id id' sub sub' j c' hlow hj hpull ih =>
    intro m l i a hs
    obtain ⟨m₂, hswap, hframe, hgo⟩ := swap_step (E := E) (by omega) hs hlow
      (show (sub j).own = some p' by rw [hj]; rfl)
    have hs₂ := hswap.state hs
    have hchild := hs₂.child
    have hinner := hchild.rep j
    rw [hj] at hinner
    obtain ⟨hkeep, hfreed⟩ := ih (by omega) m₂ id j _ (hchild.nodeState j)
    have hused : m₂.ctx.used = m.ctx.used := by
      rw [hswap.own.eq]
      exact Set.sdiff_union_of_subset hs.used
    rw [hgo, if_pos hinner.2.1]
    refine ⟨hswap.trans (NodeKeep.of_child hs₂ (hkeep.block hchild)), ?_⟩
    rw [hused] at hfreed
    refine hfreed.imp_right ?_
    rintro ⟨id₁, h1, l', i', h2, h3, h4, h5, h6, h7⟩
    have hmem : l' ∈ (inner p id sub : SegCell (d + 2)).ids := by
      rcases h3 with ⟨rfl, _⟩ | h3
      · exact Or.inl rfl
      · exact mem_foot.mpr (Or.inr ⟨j, h3⟩)
    have hnode := hframe l' i' h2 (fun he => hs.self (he.1 ▸ hmem))
    rw [hnode] at h4 h5
    exact ⟨id₁, mem_foot.mpr (Or.inr ⟨j, h1⟩), l', i', h2, Or.inr hmem, h4, h5, h6.trans (by rw [hused]),
      h7⟩

theorem pull_spec {c' : SegCell d} (h : Pull (sub i) c') (hd : d ≤ 3)
    (hs : BlockState z m pre id a sub) :
    BlockKeep z E m id a sub (ummuSwapNextLevelNode (d + 1) (slotRef id i) m)
      (Function.update sub i c') :=
  (pull_node h hd m id i _ (hs.nodeState i)).1.block hs

/-- `ummu_table_clear_node` takes the piece of a node away. -/
theorem clearNode_spec {c' : SegCell d} (hd : d ≤ 3) (hs : BlockState z m pre id a sub)
    (h : Drop (sub i) c') :
    BlockRun z E m pre id a sub (ummuTableClearNode (d + 1) (slotRef id i) pre m)
      (Function.update sub i c') := by
  obtain ⟨b, hb⟩ := hs.inv.ctx.mapped_of_used (hs.used (mem_foot.mpr (Or.inl rfl)))
  have hrep := hs.rep i
  unfold ummuTableClearNode
  simp only [childBlk_eq hs.link, childOff_eq hs.link, hb]
  generalize hc : sub i = c at h
  cases h with
  | @leaf p =>
    rw [hc] at hrep
    have hidx : 512 * (id % 4) / maxMaptEntryIndex = id % 4 := by
      simp only [maxMaptEntryIndex]
      omega
    rw [if_pos (show (m.node (slotRef id i)).type = true from hrep.2.1)]
    have hvac := vacate_run (E := E) hs hc memsetStores rfl rfl
    unfold releaseEmpty at hvac
    simp only [ummuModifyEntryCnt, hidx, show indexMaxSize = maxMaptEntryIndex from rfl]
    exact hvac
  | pull hpull =>
    have htype : (m.node (slotRef id i)).type = false := by
      cases hpull with
      | leaf hlow hj =>
        rw [hc] at hrep
        exact hrep.2.1
      | inner hlow hj h =>
        rw [hc] at hrep
        exact hrep.2.1
    rw [if_neg (by rw [htype]; exact Bool.false_ne_true)]
    have hkeep := pull_spec (E := E) (hc ▸ hpull) hd hs
    refine Or.inl ⟨⟨i, ?_⟩, hkeep⟩
    rw [Function.update_self]
    cases hpull with
    | leaf hlow hj =>
      intro he
      have hown := congrArg own he
      rw [own_mkInner] at hown
      cases hown
    | inner hlow hj h =>
      intro he
      cases he

end Pull

end Ummu
