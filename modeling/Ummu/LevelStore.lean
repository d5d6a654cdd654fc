import Ummu.Address

/-!
# The store of level blocks

Level block `l` is number `l % 4` of mapt block `l / 4`. `CtxInv` ties the counters, the bitmap
and the block array of a table context to the nodes that are valid in it.
-/

namespace Ummu

namespace TableCtx

/-- Node `i` of level block `l`. -/
def levelNode (c : TableCtx) (l i : Nat) : TableNode := c.node (l / 4) (512 * (l % 4) + i)

def validCount (c : TableCtx) (l : Nat) : Nat :=
  ((Finset.range 512).filter (fun i => (c.levelNode l i).valid = true)).card

/-- `level_entry_cnt` of level block `l`. -/
def entryCount (c : TableCtx) (l : Nat) : Nat :=
  match c.maptBlockArray (l / 4) with
  | some b => b.levelEntryCnt (l % 4)
  | none => 0

/-- The level blocks that the bitmap marks. -/
def used (c : TableCtx) : Set Nat := {l | testBit c.levelBlockBitmap l = true}

/-- The number of level blocks of mapt block `k` that the bitmap marks. -/
def usedCount (c : TableCtx) (k : Nat) : Nat :=
  ((Finset.range 4).filter (fun j => testBit c.levelBlockBitmap (4 * k + j) = true)).card

def mappedCount (c : TableCtx) : Nat :=
  ((Finset.range 512).filter (fun k => (c.maptBlockArray k).isSome = true)).card

/-- Mapt block `k` is replaced. -/
def putBlock (c : TableCtx) (k : Nat) (b : MaptBlock) : TableCtx :=
  { c with maptBlockArray := Function.update c.maptBlockArray k (some b) }

end TableCtx

/-- The counters, the bitmap and the block array agree with each other and with the nodes. Under
`z`, nodes that are not valid have a zero nonce. -/
structure CtxInv (z : Prop) (c : TableCtx) : Prop where
  root_used : 0 ∈ c.used
  used_lt : ∀ l ∈ c.used, l < 2048
  mapped_iff : ∀ k, (c.maptBlockArray k).isSome = true ↔ k = 0 ∨ ∃ l ∈ c.used, l / 4 = k
  blockId : ∀ k b, c.maptBlockArray k = some b → b.blockId = k
  levelCnt : ∀ k b, c.maptBlockArray k = some b → b.levelCnt = c.usedCount k
  entryCnt : ∀ l, c.entryCount l = c.validCount l
  unused : ∀ l, l ∉ c.used → ∀ i < 512, (c.levelNode l i).valid = false
  blockCnt : c.blockCnt = c.mappedCount
  expan : c.expan = false → ∀ k, (c.maptBlockArray k).isSome = true → k = 0
  nonce : z → ∀ k b o, c.maptBlockArray k = some b → (b.blockAddr o).valid = false →
    (b.blockAddr o).nonce = 0

def slotRef (l i : Nat) : NodeRef := .slot (l / 4) (512 * (l % 4) + i)

lemma slot_eq_slotRef (l i : Nat) : NodeRef.slot (l / 4) (512 * (l % 4) + i) = slotRef l i := rfl

lemma slotRef_inj {l l' i i' : Nat} (hi : i < 512) (hi' : i' < 512)
    (h : slotRef l i = slotRef l' i') : l = l' ∧ i = i' := by
  simp only [slotRef, NodeRef.slot.injEq] at h
  omega

@[simp] lemma Machine.node_slotRef (m : Machine) (l i : Nat) :
    m.node (slotRef l i) = m.ctx.levelNode l i := rfl

/-- A count over `range n` after the condition changed at `i` only. -/
lemma card_filter_change {n i : Nat} {p q : Nat → Prop} [DecidablePred p] [DecidablePred q]
    (hi : i < n) (h : ∀ j, j < n → j ≠ i → (p j ↔ q j)) :
    ((Finset.range n).filter q).card + (if p i then 1 else 0) =
      ((Finset.range n).filter p).card + (if q i then 1 else 0) := by
  have hmem : i ∈ Finset.range n := Finset.mem_range.mpr hi
  rw [Finset.card_filter, Finset.card_filter, ← Finset.add_sum_erase _ _ hmem,
    ← Finset.add_sum_erase _ (fun j => if p j then 1 else 0) hmem]
  have hrest : ∑ j ∈ (Finset.range n).erase i, (if q j then 1 else 0) =
      ∑ j ∈ (Finset.range n).erase i, (if p j then 1 else 0) := by
    refine Finset.sum_congr rfl (fun j hj => ?_)
    obtain ⟨hne, hlt⟩ := Finset.mem_erase.mp hj
    simp only [h j (Finset.mem_range.mp hlt) hne]
  omega

section Store

variable {z : Prop} {c : TableCtx} {k l i : Nat} {b : MaptBlock}

lemma CtxInv.mapped_of_used (h : CtxInv z c) (hl : l ∈ c.used) :
    ∃ b, c.maptBlockArray (l / 4) = some b :=
  Option.isSome_iff_exists.mp ((h.mapped_iff _).mpr (Or.inr ⟨l, hl, rfl⟩))

lemma levelNode_of_block (hb : c.maptBlockArray (l / 4) = some b) (i : Nat) :
    c.levelNode l i = b.blockAddr (512 * (l % 4) + i) := by
  simp only [TableCtx.levelNode, TableCtx.node, hb]

lemma levelNode_of_none (hb : c.maptBlockArray (l / 4) = none) (i : Nat) :
    c.levelNode l i = TableNode.zero := by
  simp only [TableCtx.levelNode, TableCtx.node, hb]
  rfl

lemma entryCount_of_block (hb : c.maptBlockArray (l / 4) = some b) :
    c.entryCount l = b.levelEntryCnt (l % 4) := by
  simp only [TableCtx.entryCount, hb]

lemma putBlock_self (c : TableCtx) (k : Nat) (b : MaptBlock) :
    (c.putBlock k b).maptBlockArray k = some b := Function.update_self ..

lemma putBlock_ne {k' : Nat} (h : k' ≠ k) :
    (c.putBlock k b).maptBlockArray k' = c.maptBlockArray k' := Function.update_of_ne h ..

lemma putBlock_putBlock (c : TableCtx) (k : Nat) (b b' : MaptBlock) :
    (c.putBlock k b).putBlock k b' = c.putBlock k b' := by
  simp only [TableCtx.putBlock, Function.update_idem]

lemma modifyBlock_eq (hb : c.maptBlockArray k = some b) (f : MaptBlock → MaptBlock) :
    c.modifyBlock k f = c.putBlock k (f b) := by
  simp only [TableCtx.modifyBlock, TableCtx.putBlock, hb, Option.map_some]

lemma levelNode_putBlock_ne (h : l / 4 ≠ k) (i : Nat) :
    (c.putBlock k b).levelNode l i = c.levelNode l i := by
  simp only [TableCtx.levelNode, TableCtx.node, putBlock_ne h]

/-- Node `i` of level block `l` becomes `n`, and the entry count of the level block `v`. -/
def TableCtx.putNode (c : TableCtx) (l i : Nat) (b : MaptBlock) (n : TableNode) (v : Nat) :
    TableCtx :=
  c.putBlock (l / 4) { b with
    blockAddr := Function.update b.blockAddr (512 * (l % 4) + i) n
    levelEntryCnt := Function.update b.levelEntryCnt (l % 4) v }

lemma putNode_block (c : TableCtx) (l i : Nat) (b : MaptBlock) (n : TableNode) (v : Nat) :
    (c.putNode l i b n v).maptBlockArray (l / 4) = some { b with
      blockAddr := Function.update b.blockAddr (512 * (l % 4) + i) n
      levelEntryCnt := Function.update b.levelEntryCnt (l % 4) v } := putBlock_self ..

lemma levelNode_putNode_self (c : TableCtx) (l i : Nat) (b : MaptBlock) (n : TableNode)
    (v : Nat) : (c.putNode l i b n v).levelNode l i = n := by
  rw [levelNode_of_block (putNode_block ..)]
  exact Function.update_self ..

lemma levelNode_putNode_ne {l' j : Nat} {n : TableNode} {v : Nat}
    (hb : c.maptBlockArray (l / 4) = some b) (hi : i < 512) (hj : j < 512)
    (h : ¬(l' = l ∧ j = i)) : (c.putNode l i b n v).levelNode l' j = c.levelNode l' j := by
  by_cases hk : l' / 4 = l / 4
  · rw [levelNode_of_block (by rw [hk]; exact putNode_block ..),
      levelNode_of_block (by rw [hk]; exact hb)]
    exact Function.update_of_ne (by omega) ..
  · exact levelNode_putBlock_ne hk j

@[simp] lemma used_putNode (c : TableCtx) (l i : Nat) (b : MaptBlock) (n : TableNode) (v : Nat) :
    (c.putNode l i b n v).used = c.used := rfl

/-- One node of a used level block may change if the entry count of the block follows. -/
theorem CtxInv.putNode {n : TableNode} {v : Nat} (h : CtxInv z c) (hl : l ∈ c.used) (hi : i < 512)
    (hb : c.maptBlockArray (l / 4) = some b) (hz : z → n.valid = false → n.nonce = 0)
    (hv : v + (if (c.levelNode l i).valid = true then 1 else 0) =
      c.entryCount l + (if n.valid = true then 1 else 0)) : CtxInv z (c.putNode l i b n v) := by
  have hsome : ∀ k, ((c.putNode l i b n v).maptBlockArray k).isSome =
      (c.maptBlockArray k).isSome := by
    intro k
    by_cases hk : k = l / 4
    · rw [hk, TableCtx.putNode, putBlock_self, hb]
      rfl
    · rw [TableCtx.putNode, putBlock_ne hk]
  have hget : ∀ k b', (c.putNode l i b n v).maptBlockArray k = some b' → ∃ b₀,
      c.maptBlockArray k = some b₀ ∧ b'.blockId = b₀.blockId ∧ b'.levelCnt = b₀.levelCnt ∧
      ∀ o, b'.blockAddr o = b₀.blockAddr o ∨ b'.blockAddr o = n := by
    intro k b' hb'
    by_cases hk : k = l / 4
    · rw [hk, TableCtx.putNode, putBlock_self] at hb'
      obtain rfl := Option.some.inj hb'
      refine ⟨b, hk ▸ hb, rfl, rfl, fun o => ?_⟩
      by_cases ho : o = 512 * (l % 4) + i
      · exact Or.inr (by rw [ho]; exact Function.update_self ..)
      · exact Or.inl (Function.update_of_ne ho ..)
    · rw [TableCtx.putNode, putBlock_ne hk] at hb'
      exact ⟨b', hb', rfl, rfl, fun _ => Or.inl rfl⟩
  refine ⟨h.root_used, h.used_lt, fun k => ?_, ?_, ?_, fun l' => ?_, ?_, ?_, ?_, ?_⟩
  · rw [hsome k]
    exact h.mapped_iff k
  · intro k b' hb'
    obtain ⟨b₀, h0, hid, _⟩ := hget k b' hb'
    rw [hid]
    exact h.blockId k b₀ h0
  · intro k b' hb'
    obtain ⟨b₀, h0, _, hcnt, _⟩ := hget k b' hb'
    rw [hcnt]
    exact h.levelCnt k b₀ h0
  · by_cases hl' : l' = l
    · subst hl'
      rw [entryCount_of_block (putNode_block ..)]
      have hcard := card_filter_change (n := 512)
        (p := fun j => (c.levelNode l' j).valid = true)
        (q := fun j => ((c.putNode l' i b n v).levelNode l' j).valid = true) hi
        (fun j hj hne => by rw [levelNode_putNode_ne hb hi hj (fun h => hne h.2)])
      simp only [levelNode_putNode_self] at hcard
      have hold := h.entryCnt l'
      simp only [TableCtx.validCount] at hold ⊢
      simp only [Function.update_self]
      omega
    · have hval : (c.putNode l i b n v).validCount l' = c.validCount l' := by
        unfold TableCtx.validCount
        refine congrArg Finset.card (Finset.filter_congr (fun j hj => ?_))
        rw [levelNode_putNode_ne hb hi (Finset.mem_range.mp hj) (fun h => hl' h.1)]
      rw [hval, ← h.entryCnt l']
      by_cases hk : l' / 4 = l / 4
      · rw [entryCount_of_block (by rw [hk]; exact putNode_block ..),
          entryCount_of_block (by rw [hk]; exact hb)]
        exact Function.update_of_ne (show l' % 4 ≠ l % 4 by omega) ..
      · simp only [TableCtx.entryCount, TableCtx.putNode, putBlock_ne hk]
  · intro l' hl' j hj
    rw [levelNode_putNode_ne hb hi hj (fun he => hl' (he.1 ▸ hl))]
    exact h.unused l' hl' j hj
  · rw [show (c.putNode l i b n v).blockCnt = c.blockCnt from rfl, h.blockCnt]
    simp only [TableCtx.mappedCount, hsome]
  · intro he k hk
    rw [hsome] at hk
    exact h.expan he k hk
  · intro hz' k b' o hb' ho
    obtain ⟨b₀, h0, _, _, haddr⟩ := hget k b' hb'
    rcases haddr o with heq | heq
    · rw [heq] at ho ⊢
      exact h.nonce hz' k b₀ o h0 ho
    · rw [heq] at ho ⊢
      exact hz hz' ho

end Store

end Ummu
