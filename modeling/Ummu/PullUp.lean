import Ummu.TidCalls

/-!
# The pull-up on a subtree

What `ummu_swap_next_level_node` does to any well-formed subtree of the table, told from the nodes
alone: the ranges that they denote, their links and their counters.
-/

namespace Ummu

open Lib Machine Cell

/-- What a node says: a range of addresses, and its attributes. -/
structure NodeRange where
  base : Nat
  limit : Nat
  permission : BitVec 6
  eBit : Bool
  tokenCheck : Bool
  tokens : NodeTokens

/-- The range of a node whose slot starts at `a`. -/
def TableNode.range (n : TableNode) (a : Nat) : NodeRange :=
  ⟨a + n.base, a + n.limit, n.permission, n.eBit, n.tokenCheck, n.tokens⟩

/-- Node `i` of level block `l` with all below it, in a slot of depth `d` at `a`: the level blocks
below it and the ranges of its nodes. A node of type 0 has a child block of its own that holds a
valid node; the nodes of depth 0 are of type 1. -/
inductive Subtree (c : TableCtx) : Nat → Nat → Nat → Nat → Set Nat → Multiset NodeRange → Prop where
  | invalid {d l i a : Nat} (hv : (c.levelNode l i).valid = false) : Subtree c d l i a ∅ 0
  | leaf {d l i a : Nat} (hv : (c.levelNode l i).valid = true) (ht : (c.levelNode l i).type = true)
      (hle : (c.levelNode l i).base ≤ (c.levelNode l i).limit)
      (hlt : (c.levelNode l i).limit < tableGeometry.span d) :
      Subtree c d l i a ∅ {(c.levelNode l i).range a}
  | inner {d l i a id : Nat} {blocks : Fin 512 → Set Nat} {ranges : Fin 512 → Multiset NodeRange}
      (hv : (c.levelNode l i).valid = true) (ht : (c.levelNode l i).type = false)
      (hle : (c.levelNode l i).base ≤ (c.levelNode l i).limit)
      (hlt : (c.levelNode l i).limit < tableGeometry.span (d + 1))
      (hlink : LinkTo (c.levelNode l i) id)
      (hsub : ∀ j : Fin 512, Subtree c d id j (tableGeometry.child d a j) (blocks j) (ranges j))
      (hne : ∃ j : Fin 512, (c.levelNode id j).valid = true) (hid : ∀ j, id ∉ blocks j)
      (hdisj : ∀ j k, j ≠ k → Disjoint (blocks j) (blocks k)) :
      Subtree c (d + 1) l i a ({id} ∪ ⋃ j, blocks j)
        ((c.levelNode l i).range a ::ₘ ∑ j, ranges j)

/-- A well-formed subtree in a table context whose counters are exact. -/
structure WellFormed (c : TableCtx) (d l i a : Nat) (ranges : Multiset NodeRange) : Prop where
  ctx : CtxInv False c
  mem : l ∈ c.used
  lt : i < 512
  tree : ∃ blocks, Subtree c d l i a blocks ranges ∧ blocks ⊆ c.used ∧ l ∉ blocks ∧ 0 ∉ blocks

/-- Every token field is that of the label. -/
def NodeRule.exact : NodeRule where
  zero := False
  flags := False
  holds p k := k = ⟨p.label.tokenCount.setWidth 2, p.label.tokenVal0, p.label.tokenVal1⟩

/-- What a node with the piece says. -/
def nodeRange (p : Piece SegInfo) : NodeRange :=
  ⟨p.base, p.limit, p.label.permission.setWidth 6, p.label.eBit.getLsbD 0, p.label.tokenCheck,
    ⟨p.label.tokenCount.setWidth 2, p.label.tokenVal0, p.label.tokenVal1⟩⟩

/-- A record with the attributes of the node. -/
def TableNode.label (n : TableNode) : SegInfo where
  startAddr := 0
  grantSize := 0
  permission := n.permission.setWidth 32
  eBit := (BitVec.ofBool n.eBit).setWidth 32
  tokenCheck := n.tokenCheck
  tokenCount := n.nonce.setWidth 8
  tokenVal0 := n.tokenVal0
  tokenVal1 := n.tokenVal1

def TableNode.piece (n : TableNode) (a : Nat) : Piece SegInfo := ⟨a + n.base, a + n.limit, n.label⟩

section Cells

variable {c : TableCtx} {d l i a : Nat} {n : TableNode} {p : Piece SegInfo}

lemma Denotes.range_eq (h : Denotes .exact d a n p) : n.range a = nodeRange p := by
  have htokens : n.tokens = _ := h.tokens
  rw [TableNode.range, nodeRange, ← h.base, ← h.limit, htokens, h.attrs.permission, h.attrs.eBit,
    h.attrs.tokenCheck]

lemma denotes_piece (hle : n.base ≤ n.limit) (hlt : n.limit < tableGeometry.span d) :
    Denotes .exact d a n (n.piece a) := by
  refine ⟨rfl, rfl, hle, hlt, ⟨?_, ?_, rfl, fun _ => ⟨rfl, rfl⟩⟩, ?_⟩
  · simp [TableNode.piece, TableNode.label]
  · cases h : n.eBit <;> simp [TableNode.piece, TableNode.label, h]
  · simp [NodeRule.exact, TableNode.piece, TableNode.label, TableNode.tokens]

lemma map_sum_range {ι : Type} [Fintype ι] (f : ι → Multiset (Piece SegInfo)) :
    (∑ j, f j).map nodeRange = ∑ j, (f j).map nodeRange :=
  map_sum (Multiset.mapAddMonoidHom nodeRange) f Finset.univ

/-- A well-formed subtree is a cell. -/
lemma cell_of_subtree {blocks : Set Nat} {ranges : Multiset NodeRange}
    (h : Subtree c d l i a blocks ranges) :
    ∃ cell : SegCell d, CellAt .exact c cell l (c.levelNode l i) a ∧ cell.Separate ∧
      cell.Inhabited ∧ cell.ids = blocks ∧ cell.pieces.map nodeRange = ranges := by
  induction h with
  | invalid hv => exact ⟨empty, hv, trivial, trivial, rfl, rfl⟩
  | @leaf d l i a hv ht hle hlt =>
    have hden := denotes_piece (a := a) hle hlt
    refine ⟨leaf ((c.levelNode l i).piece a), ⟨hv, ht, hden⟩, trivial, trivial, rfl, ?_⟩
    rw [Cell.pieces, Multiset.map_singleton, ← hden.range_eq]
  | @inner d l i a id blocks ranges hv ht hle hlt hlink _ hne hid hdisj ih =>
    have hden := denotes_piece (a := a) hle hlt
    choose sub hcell hsep hin hids hpieces using ih
    refine ⟨inner ((c.levelNode l i).piece a) id sub, ⟨hv, ht, hden, hlink, fun hf => hf.elim, hcell⟩,
      ⟨fun j => ?_, fun j k hjk => ?_, hsep⟩, ⟨?_, hin⟩, ?_, ?_⟩
    · rw [hids]
      exact hid j
    · rw [hids, hids]
      exact hdisj j k hjk
    · obtain ⟨j, hj⟩ := hne
      refine ⟨j, fun he => ?_⟩
      rw [(cellAt_valid (hcell j)).mpr he] at hj
      cases hj
    · rw [ids_inner, blockIds]
      simp only [hids]
    · rw [Cell.pieces, Multiset.map_cons, map_sum_range, ← hden.range_eq]
      simp only [hpieces]

/-- A cell is a well-formed subtree, with the ranges of its pieces where its rule fixes the
tokens. -/
lemma subtree_of_cell {z : NodeRule} {cell : SegCell d}
    (h : CellAt z c cell l (c.levelNode l i) a) (hsep : cell.Separate) (hin : cell.Inhabited) :
    ∃ ranges, Subtree c d l i a cell.ids ranges ∧
      (z = .exact → ranges = cell.pieces.map nodeRange) := by
  induction cell generalizing l i a with
  | empty => exact ⟨_, .invalid h, fun _ => rfl⟩
  | leaf p =>
    obtain ⟨hv, ht, hden⟩ := h
    refine ⟨_, .leaf hv ht hden.base_le hden.limit_lt, fun hz => ?_⟩
    subst hz
    rw [Cell.pieces, Multiset.map_singleton, ← hden.range_eq]
  | inner p id sub ih =>
    obtain ⟨hv, ht, hden, hlink, _, hsub⟩ := h
    obtain ⟨⟨j, hj⟩, hsubin⟩ := hin
    choose ranges hranges hpieces using fun k => ih k (hsub k) (hsep.2.2 k) (hsubin k)
    have hvalid := mt (cellAt_valid (hsub j)).mp hj
    rw [Bool.not_eq_false] at hvalid
    refine ⟨_, .inner hv ht hden.base_le hden.limit_lt hlink hranges ⟨j, hvalid⟩ hsep.1 hsep.2.1,
      fun hz => ?_⟩
    rw [Cell.pieces, Multiset.map_cons, map_sum_range]
    simp only [hpieces _ hz]
    subst hz
    rw [← hden.range_eq]

end Cells

/-- `ummu_swap_next_level_node` with its `level`, while no more than `calls` calls of it are needed. -/
def swapWithin : Nat → Nat → NodeRef → Machine → Option Machine
  | 0, _, _, _ => none
  | calls + 1, level, r, m =>
    let blk := m.childBlk r
    let off := m.childOff r
    match m.ctx.maptBlockArray blk with
    | none => some (m.error .maptBlockInvalid)
    | some b =>
      match firstIndex (fun i => (m.ctx.node blk (off + i)).valid) 0 maxMaptEntryIndex with
      | none => some (accesses b off maxMaptEntryIndex m)
      | some i =>
        let m := (accesses b off (i + 1) m).log (.rangeBits (level + 1))
        let next := NodeRef.slot blk (off + i)
        let m := m.stores r (swapStores (m.node next) i level)
        if (m.node next).type = false then swapWithin calls (level + 1) next m
        else
          let m := m.stores next
            [fun n => { n with valid := false }, fun n => { n with nonce := 0 }]
          let idx := off / maxMaptEntryIndex % 2 ^ 8
          let m := stepEntryCnt blk idx false m
          if entryCnt m blk idx = 0 then
            some ((ummuFreeLevelBlock r m).stores r unlinkStores)
          else some m

section Returns

variable {m : Machine} {r : NodeRef}

lemma mem_trace_stores {e : Event} (he : e ∈ m.trace) (fs : List (TableNode → TableNode)) :
    e ∈ (m.stores r fs).trace := by
  induction fs generalizing m with
  | nil => exact he
  | cons f fs ih =>
    apply ih
    cases r with
    | root => exact he
    | slot blk off => exact List.mem_append_left _ he

/-- The calls come to an end within the levels of the table, unless one reads a row of
`g_mapt_range_bits` behind its end. -/
lemma swapWithin_returns (rem : Nat) (hrem : rem ≤ 3) (r : NodeRef) (m : Machine) :
    swapWithin (rem + 1) (levelOf (rem + 1)) r m = some (ummuSwapNextLevelNode (rem + 1) r m) ∨
      Event.rangeBits (maxLevelIndex + 1) ∈ (ummuSwapNextLevelNode (rem + 1) r m).trace := by
  induction rem generalizing r m with
  | zero =>
    rw [swapWithin, ummuSwapNextLevelNode]
    cases m.ctx.maptBlockArray (m.childBlk r) with
    | none => exact Or.inl rfl
    | some b =>
      cases firstIndex (fun i => (m.ctx.node (m.childBlk r) (m.childOff r + i)).valid) 0
          maxMaptEntryIndex with
      | none => exact Or.inl rfl
      | some i =>
        simp only
        split_ifs with ht he
        · exact Or.inr (mem_trace_stores (List.mem_append_right _ (List.mem_singleton.mpr rfl)) _)
        · exact Or.inl rfl
        · exact Or.inl rfl
  | succ rem ih =>
    rw [swapWithin, ummuSwapNextLevelNode]
    cases m.ctx.maptBlockArray (m.childBlk r) with
    | none => exact Or.inl rfl
    | some b =>
      cases firstIndex (fun i => (m.ctx.node (m.childBlk r) (m.childOff r + i)).valid) 0
          maxMaptEntryIndex with
      | none => exact Or.inl rfl
      | some i =>
        have hlevel : levelOf (rem + 2) + 1 = levelOf (rem + 1) := by
          simp only [levelOf, maxLevelIndex]
          omega
        simp only
        split_ifs with ht he
        · rw [hlevel]
          exact ih (by omega) _ _
        · exact Or.inl rfl
        · exact Or.inl rfl

end Returns

/-- One level block was given back. None of its nodes is valid any more, and the node that linked
to it is a leaf without a link. -/
def OneFreed (c c' : TableCtx) : Prop :=
  ∃ id ∈ c.used, ∃ l ∈ c.used, ∃ i < 512, c'.used = c.used \ {id} ∧
    (∀ j < 512, (c'.levelNode id j).valid = false) ∧ (c.levelNode l i).type = false ∧
    LinkTo (c.levelNode l i) id ∧ c'.levelNode l i = unlinkNode (c'.levelNode l i)

section PullUp

variable {c : TableCtx} {d l i a level lvl : Nat} {ranges : Multiset NodeRange}

lemma WellFormed.nodeState (h : WellFormed c d l i a ranges) (lvl : Nat) :
    ∃ cell : SegCell d, NodeState .exact (startMachine c [] lvl) l i a cell ∧ cell.Inhabited ∧
      cell.pieces.map nodeRange = ranges := by
  obtain ⟨blocks, htree, hused, hself, hroot⟩ := h.tree
  obtain ⟨cell, hcell, hsep, hin, rfl, hpieces⟩ := cell_of_subtree htree
  exact ⟨cell, ⟨⟨h.ctx, fun _ hmem => by cases hmem⟩, h.mem, h.lt, hcell, hsep, hself, hused,
    hroot⟩, hin, hpieces⟩

lemma NodeState.wellFormed {m : Machine} {cell : SegCell d}
    (h : NodeState .exact m l i a cell) (hin : cell.Inhabited) :
    WellFormed m.ctx d l i a (cell.pieces.map nodeRange) := by
  obtain ⟨ranges, htree, hranges⟩ := subtree_of_cell h.rep h.sep hin
  rw [← hranges rfl]
  exact ⟨h.inv.ctx, h.mem, h.lt, _, htree, h.used, h.self, h.root⟩

/-- `ummu_swap_next_level_node` takes exactly the range of the node itself away. -/
theorem swapNextLevelNode_pullsUp (hlevel : level < maxLevelIndex)
    (h : WellFormed c (maxLevelIndex - level) l i a ranges) (hv : (c.levelNode l i).valid = true)
    (ht : (c.levelNode l i).type = false) :
    ∃ m' ranges',
      swapWithin (levelOf level) level (slotRef l i) (startMachine c [] lvl) = some m' ∧
      m' = ummuSwapNextLevelNode (levelOf level) (slotRef l i) (startMachine c [] lvl) ∧
      WellFormed m'.ctx (maxLevelIndex - level) l i a ranges' ∧
      (m'.ctx.levelNode l i).valid = true ∧
      ranges = (c.levelNode l i).range a ::ₘ ranges' ∧
      (m'.ctx.used = c.used ∨ OneFreed c m'.ctx) ∧ ∀ e ∈ m'.trace, Quiet ∅ e := by
  simp only [maxLevelIndex] at hlevel
  obtain ⟨d, hd⟩ : ∃ d, d + level = 2 := ⟨2 - level, by omega⟩
  have hle : d + 1 ≤ 3 := by omega
  have hdepth : maxLevelIndex - level = d + 1 := by
    simp only [maxLevelIndex]
    omega
  have hrem : levelOf level = d + 2 := by
    simp only [levelOf, maxLevelIndex]
    omega
  have hself : levelOf (d + 2) = level := by
    simp only [levelOf, maxLevelIndex]
    omega
  rw [hdepth] at h ⊢
  rw [hrem]
  obtain ⟨cell, hs, hin, rfl⟩ := h.nodeState lvl
  have hrep := hs.rep
  cases cell with
  | empty => exact (Bool.false_ne_true (hrep.symm.trans hv)).elim
  | leaf p => exact (Bool.false_ne_true (ht.symm.trans hrep.2.1)).elim
  | inner p id sub =>
    obtain ⟨cell', hpull⟩ := exists_pull hin
    obtain ⟨hkeep, hfreed⟩ := pull_node (E := ∅) hpull hle _ l i a hs
    have hs' := hkeep.state hs
    have hin' := hpull.inhabited hin
    obtain ⟨es, hes, hquiet⟩ := hkeep.trace
    have htrace : ∀ e ∈ (ummuSwapNextLevelNode (d + 2) (slotRef l i)
        (startMachine c [] lvl)).trace, Quiet ∅ e := fun e he => hquiet e (by rwa [hes] at he)
    obtain ⟨q, hq⟩ := hpull.own
    refine ⟨_, _, ?_, rfl, hs'.wellFormed hin', (cellAt_own hs'.rep hq).1, ?_, ?_, htrace⟩
    · rcases swapWithin_returns (d + 1) hle (slotRef l i) (startMachine c [] lvl) with h | h
      · rw [← hself]
        exact h
      · exact absurd (htrace _ h) (by simp only [Quiet, not_le]; omega)
    · rw [← hpull.pieces rfl, Multiset.map_cons, ← hrep.2.2.1.range_eq]
      rfl
    · refine hfreed.imp_right ?_
      rintro ⟨id', hid', l', i', hi', hl', ht', hlink, hused, hnode⟩
      have hmem : l' ∈ c.used := by
        rcases hl' with ⟨rfl, _⟩ | hl'
        · exact hs.mem
        · exact hs.used hl'
      refine ⟨id', hs.used hid', l', hmem, i', hi', hused, ?_, ht', hlink, hnode⟩
      apply hs'.inv.ctx.unused
      rw [hused]
      exact fun h => h.2 rfl

lemma TreeInv.wellFormed {z : NodeRule} {sub : SegBlock 3} (h : TreeInv z c sub)
    (hin : ∀ i, (sub i).Inhabited) (i : Fin tableGeometry.slots) :
    ∃ ranges, WellFormed c 3 0 i (tableGeometry.child 3 0 i) ranges := by
  obtain ⟨ranges, htree, _⟩ := subtree_of_cell (h.rep i) (h.sep.2.2 i) (hin i)
  refine ⟨ranges, { h.ctx with nonce := fun hf => hf.elim }, h.ctx.root_used, i.isLt, _, htree,
    fun x hx => ?_, h.sep.1 i, h.sep.1 i⟩
  rw [← h.used]
  exact mem_foot.mpr (Or.inr ⟨i, hx⟩)

/-- A grant of the second page. -/
def nextPageGrant : ApiCall := .grant ⟨0x1000, 0x1000, maptPermRW, some ⟨none, 0⟩⟩ ⟨[], true, none, 0⟩

/-- The node of the first page has a child block for the second one. -/
def twoPages : MaptInfo := (nextPageGrant.run (pageGrant.run (newTid .zero)).info).info

lemma twoPages_reach : TidReach True (fun _ call => call.RecordAlloc) twoPages := by
  have hfresh : nextPageGrant.Fresh True := fun mem hmem => by cases hmem
  exact .step (pageGrant_reach rfl (fun _ => rfl)) ⟨nextPageGrant, hfresh, rfl, rfl⟩

/-- The first node of level block 0. -/
def MaptInfo.firstNode (info : MaptInfo) : Option TableNode :=
  match info.blockBase with
  | .tableCtx c _ => some (c.levelNode 0 0)
  | .entryBlock _ => none

lemma twoPages_firstNode :
    twoPages.firstNode.map (fun n => (n.valid, n.type)) = some (true, false) := by decide +kernel

theorem swapNextLevelNode_pullsUp_page : ∃ c t m' ranges ranges',
    twoPages.blockBase = .tableCtx c t ∧
      swapWithin 4 0 (slotRef 0 0) (startMachine c [] 0) = some m' ∧
      WellFormed m'.ctx 3 0 0 0 ranges' ∧ ranges = (c.levelNode 0 0).range 0 ::ₘ ranges' := by
  have hnode := twoPages_firstNode
  rcases tidReach_inv twoPages_reach with ⟨node, hb⟩ | ⟨c, t, sub, hb, hinv⟩
  · rw [MaptInfo.firstNode, hb] at hnode
    cases hnode
  · rw [MaptInfo.firstNode, hb] at hnode
    obtain ⟨hv, ht⟩ := Prod.mk.inj (Option.some.inj hnode)
    obtain ⟨ranges, h⟩ := hinv.tree.wellFormed (fun i => rep_inhabited (hinv.rep i)) ⟨0, by decide⟩
    obtain ⟨m', ranges', h1, _, h3, _, h5, _⟩ := @swapNextLevelNode_pullsUp c 0 0 0 0 0
      ranges (by decide) h hv ht
    exact ⟨c, _, m', ranges, ranges', hb, h1, h3, h5⟩

end PullUp

end Ummu
