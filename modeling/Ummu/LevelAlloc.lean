import Ummu.LevelFree

/-!
# Taking a level block

`ummu_alloc_level_block` takes the first level block that is not in use, links the node to it and
maps its mapt block if need be.
-/

namespace Ummu

open Machine

section Mark

variable {z : Prop} {c : TableCtx} {k l : Nat} {b : MaptBlock}

/-- The table context after level block `l` is taken. -/
def TableCtx.mark (c : TableCtx) (l : Nat) : TableCtx :=
  ({ c with levelBlockBitmap := ummuSetBit l c.levelBlockBitmap } : TableCtx).modifyBlock (l / 4)
    (fun b => { b with levelCnt := inc16 b.levelCnt })

/-- The table context after mapt block `k` is mapped. -/
def TableCtx.map (c : TableCtx) (k : Nat) (b : MaptBlock) : TableCtx :=
  { c with
    maptBlockArray := Function.update c.maptBlockArray k (some b)
    blockCnt := inc16 c.blockCnt }

lemma mark_eq (hb : c.maptBlockArray (l / 4) = some b) :
    c.mark l = c.recount (l / 4) b (inc16 b.levelCnt) (ummuSetBit l c.levelBlockBitmap) := by
  simp only [TableCtx.mark, TableCtx.modifyBlock, hb, Option.map_some]
  rfl

lemma used_mark (c : TableCtx) (l : Nat) : (c.mark l).used = insert l c.used := used_setBit c l

/-- The counter of a mapt block after one of its level blocks is taken. -/
lemma levelCnt_mark {b' : MaptBlock}
    (hold : ∀ k b, c.maptBlockArray k = some b → b.levelCnt = c.usedCount k) (hl : l ∉ c.used)
    (hb : c.maptBlockArray (l / 4) = some b) (hb' : (c.mark l).maptBlockArray k = some b') :
    b'.levelCnt = (c.mark l).usedCount k := by
  have hchange := usedCount_change c (c.mark l) l
    (fun l' hne => by rw [used_mark]; simp [hne]) k
  have hin : testBit (c.mark l).levelBlockBitmap l = true := by
    simp [TableCtx.mark, TableCtx.modifyBlock]
  rw [mark_eq hb] at hb'
  obtain ⟨b₀, h0, _, _, hcnt⟩ := block_recount hb hb'
  have hle := usedCount_le c k
  have hb₀ := hold k b₀ h0
  rw [hcnt]
  by_cases hk : k = l / 4
  · rw [if_neg (fun h => hl h.2), if_pos ⟨hk.symm, hin⟩] at hchange
    obtain rfl : b₀ = b := Option.some.inj (h0.symm.trans (hk ▸ hb))
    rw [if_pos hk, inc16, if_neg (by omega)]
    omega
  · rw [if_neg (fun h => hk h.1.symm), if_neg (fun h => hk h.1.symm)] at hchange
    rw [if_neg hk]
    omega

/-- A level block of a mapped mapt block is taken. -/
lemma CtxInv.mark (h : CtxInv z c) (hl : l ∉ c.used) (hlt : l < 2048)
    (hb : c.maptBlockArray (l / 4) = some b) : CtxInv z (c.mark l) := by
  have hmark := mark_eq hb
  refine ⟨?_, fun l' hl' => ?_, fun k => ?_, fun k b' hb' => ?_, fun k b' hb' => ?_,
    fun l' => ?_, fun l' hl' i hi => ?_, ?_, fun he k hk => ?_, fun hz k b' o hb' ho => ?_⟩
  · rw [used_mark]
    exact Or.inr h.root_used
  · rw [used_mark] at hl'
    rcases hl' with rfl | hl'
    · exact hlt
    · exact h.used_lt l' hl'
  · rw [used_mark, hmark, isSome_recount hb, h.mapped_iff k]
    refine or_congr_right' (fun hk0 => ⟨fun ⟨l', hl', hk⟩ => ⟨l', Or.inr hl', hk⟩, ?_⟩)
    rintro ⟨l', rfl | hl', hk⟩
    · have hsome : (c.maptBlockArray k).isSome = true := by rw [← hk, hb]; rfl
      exact ((h.mapped_iff k).mp hsome).resolve_left hk0
    · exact ⟨l', hl', hk⟩
  · rw [hmark] at hb'
    obtain ⟨b₀, h0, hid, _⟩ := block_recount hb hb'
    rw [hid]
    exact h.blockId k b₀ h0
  · exact levelCnt_mark h.levelCnt hl hb hb'
  · rw [hmark, entryCount_recount hb, h.entryCnt]
    simp only [TableCtx.validCount, levelNode_recount hb]
  · rw [hmark, levelNode_recount hb]
    rw [used_mark] at hl'
    exact h.unused l' (fun hu => hl' (Or.inr hu)) i hi
  · rw [hmark, show (c.recount (l / 4) b (inc16 b.levelCnt)
      (ummuSetBit l c.levelBlockBitmap)).blockCnt = c.blockCnt from rfl, h.blockCnt]
    simp only [TableCtx.mappedCount, isSome_recount hb]
  · rw [hmark, isSome_recount hb] at hk
    rw [hmark] at he
    exact h.expan he k hk
  · rw [hmark] at hb'
    obtain ⟨b₀, h0, _, haddr, _⟩ := block_recount hb hb'
    rw [haddr] at ho ⊢
    exact h.nonce hz k b₀ o h0 ho

lemma map_self (c : TableCtx) (k : Nat) (b : MaptBlock) :
    (c.map k b).maptBlockArray k = some b := Function.update_self ..

lemma map_ne {k' : Nat} (h : k' ≠ k) :
    (c.map k b).maptBlockArray k' = c.maptBlockArray k' := Function.update_of_ne h ..

lemma levelNode_map_ne (h : l / 4 ≠ k) (i : Nat) :
    (c.map k b).levelNode l i = c.levelNode l i := by
  simp only [TableCtx.levelNode, TableCtx.node, map_ne h]

lemma used_map (c : TableCtx) (k : Nat) (b : MaptBlock) : (c.map k b).used = c.used := rfl

/-- A level block is taken for which a mapt block is mapped. -/
lemma CtxInv.map_mark (h : CtxInv z c) (hl : l ∉ c.used) (hlt : l < 2048)
    (hnone : c.maptBlockArray (l / 4) = none) (hexpan : c.expan = true)
    (hid : b.blockId = l / 4) (hcnt : b.levelCnt = 0) (hentry : ∀ j, b.levelEntryCnt j = 0)
    (hfresh : ∀ o, (b.blockAddr o).valid = false)
    (hz : z → ∀ o, (b.blockAddr o).nonce = 0) : CtxInv z ((c.map (l / 4) b).mark l) := by
  have hb := map_self c (l / 4) b
  have hmark := mark_eq hb
  have hk0 : l / 4 ≠ 0 := by
    intro hk
    have := (h.mapped_iff (l / 4)).mpr (Or.inl hk)
    rw [hnone] at this
    cases this
  have hout : ∀ l', l' / 4 = l / 4 → l' ∉ c.used := by
    intro l' hl' hu
    have := (h.mapped_iff (l / 4)).mpr (Or.inr ⟨l', hu, hl'⟩)
    rw [hnone] at this
    cases this
  have hcounts : ∀ k b', (c.map (l / 4) b).maptBlockArray k = some b' →
      b'.levelCnt = (c.map (l / 4) b).usedCount k := by
    intro k b' hb'
    by_cases hk : k = l / 4
    · rw [hk, map_self] at hb'
      obtain rfl := Option.some.inj hb'
      rw [hcnt, hk]
      refine (Finset.card_eq_zero.mpr (Finset.filter_eq_empty_iff.mpr (fun j hj hu => ?_))).symm
      have hj' := Finset.mem_range.mp hj
      exact hout (4 * (l / 4) + j) (by omega) hu
    · rw [map_ne hk] at hb'
      exact h.levelCnt k b' hb'
  have hsome : ∀ k, (((c.map (l / 4) b).mark l).maptBlockArray k).isSome =
      if k = l / 4 then true else (c.maptBlockArray k).isSome := by
    intro k
    rw [hmark, isSome_recount hb]
    by_cases hk : k = l / 4
    · rw [if_pos hk, hk, hb, Option.isSome_some]
    · rw [if_neg hk, map_ne hk]
  have hget : ∀ k b', ((c.map (l / 4) b).mark l).maptBlockArray k = some b' →
      (k = l / 4 ∧ b'.blockId = b.blockId ∧ b'.blockAddr = b.blockAddr) ∨
      (k ≠ l / 4 ∧ c.maptBlockArray k = some b') := by
    intro k b' hb'
    rw [hmark] at hb'
    by_cases hk : k = l / 4
    · rw [hk, recount_block] at hb'
      obtain rfl := Option.some.inj hb'
      exact Or.inl ⟨hk, rfl, rfl⟩
    · rw [recount_ne hk, map_ne hk] at hb'
      exact Or.inr ⟨hk, hb'⟩
  have hnode : ∀ l' i, l' / 4 = l / 4 →
      (((c.map (l / 4) b).mark l).levelNode l' i).valid = false := by
    intro l' i hk
    rw [hmark, levelNode_recount hb, levelNode_of_block (by rw [hk]; exact hb)]
    exact hfresh _
  have hused : ((c.map (l / 4) b).mark l).used = insert l c.used := used_mark ..
  refine ⟨?_, fun l' hl' => ?_, fun k => ?_, fun k b' hb' => ?_, fun k b' hb' => ?_,
    fun l' => ?_, fun l' hl' i hi => ?_, ?_, fun he k hk => ?_, fun hz' k b' o hb' ho => ?_⟩
  · rw [hused]
    exact Or.inr h.root_used
  · rw [hused] at hl'
    rcases hl' with rfl | hl'
    · exact hlt
    · exact h.used_lt l' hl'
  · rw [hused, hsome k]
    by_cases hk : k = l / 4
    · rw [if_pos hk]
      exact ⟨fun _ => Or.inr ⟨l, Or.inl rfl, hk.symm⟩, fun _ => rfl⟩
    · rw [if_neg hk, h.mapped_iff k]
      refine or_congr_right' (fun _ => ⟨fun ⟨l', hl', hk'⟩ => ⟨l', Or.inr hl', hk'⟩, ?_⟩)
      rintro ⟨l', rfl | hl', hk'⟩
      · exact (hk hk'.symm).elim
      · exact ⟨l', hl', hk'⟩
  · rcases hget k b' hb' with ⟨hk, hid', _⟩ | ⟨_, hb''⟩
    · rw [hid', hid, hk]
    · exact h.blockId k b' hb''
  · exact levelCnt_mark hcounts (by rwa [used_map]) hb hb'
  · by_cases hk : l' / 4 = l / 4
    · have hval : ((c.map (l / 4) b).mark l).validCount l' = 0 := by
        refine Finset.card_eq_zero.mpr (Finset.filter_eq_empty_iff.mpr (fun j _ => ?_))
        rw [hnode l' j hk]
        exact Bool.false_ne_true
      rw [hval, hmark, entryCount_recount hb, entryCount_of_block (by rw [hk]; exact hb)]
      exact hentry _
    · rw [hmark, entryCount_recount hb,
        show (c.map (l / 4) b).entryCount l' = c.entryCount l' by
          simp only [TableCtx.entryCount, map_ne hk], h.entryCnt]
      simp only [TableCtx.validCount, levelNode_recount hb, levelNode_map_ne hk]
  · by_cases hk : l' / 4 = l / 4
    · exact hnode l' i hk
    · rw [hmark, levelNode_recount hb, levelNode_map_ne hk]
      rw [hused] at hl'
      exact h.unused l' (fun hu => hl' (Or.inr hu)) i hi
  · have hlt' : l / 4 < 512 := by omega
    have hcard := card_filter_change (n := 512)
      (p := fun k => (c.maptBlockArray k).isSome = true)
      (q := fun k => (((c.map (l / 4) b).mark l).maptBlockArray k).isSome = true) hlt'
      (fun k _ hne => by rw [hsome k, if_neg hne])
    rw [if_neg (by rw [hnone]; exact Bool.false_ne_true), if_pos (by rw [hsome, if_pos rfl])]
      at hcard
    have hle := mappedCount_le c
    rw [hmark, show ((c.map (l / 4) b).recount (l / 4) b (inc16 b.levelCnt)
      (ummuSetBit l (c.map (l / 4) b).levelBlockBitmap)).blockCnt = inc16 c.blockCnt from rfl,
      ← hmark, h.blockCnt, inc16, if_neg (by omega)]
    unfold TableCtx.mappedCount at *
    omega
  · rw [hmark] at he
    exact absurd (he.symm.trans hexpan) Bool.false_ne_true
  · rcases hget k b' hb' with ⟨_, _, haddr⟩ | ⟨_, hb''⟩
    · rw [haddr]
      exact hz hz' o
    · exact h.nonce hz' k b' o hb'' ho

end Mark

section Alloc

variable {z : Prop} {E : Set TableError} {m : Machine} {l i : Nat}

/-- Node `n` of level block `l` with its link set to level block `l'`. -/
def linkNode (l l' : Nat) (n : TableNode) : TableNode :=
  { n with
    nextBlock := decide (l' / 4 ≠ l / 4)
    nextLvIndex := BitVec.ofNat 16 (l' / 4)
    nextLvOffsetLow := lvlOffsetLow (512 * (l' % 4))
    nextLvOffsetHigh := lvlOffsetHigh (512 * (l' % 4)) }

lemma linkTo_linkNode {l l' : Nat} {n : TableNode} (h : l' < 2048) :
    LinkTo (linkNode l l' n) l' := by
  constructor
  · simp only [linkNode, BitVec.toNat_ofNat]
    omega
  · simp only [linkNode, TableNode.lvOffset, tableLvlOffset_lvlOffset]
    omega

/-- What taking level block `l'` for node `i` of level block `l` does. -/
structure AllocStep (z : Prop) (E : Set TableError) (m : Machine) (l i l' : Nat)
    (m' : Machine) : Prop where
  inv : m'.Inv z
  fresh : l' ∉ m.ctx.used
  used : m'.ctx.used = insert l' m.ctx.used
  node : m'.ctx.levelNode l i = linkNode l l' (m.ctx.levelNode l i)
  empty : ∀ j < 512, (m'.ctx.levelNode l' j).valid = false
  frame : ∀ l'' ∈ m.ctx.used, ∀ j < 512, ¬(l'' = l ∧ j = i) →
    m'.ctx.levelNode l'' j = m.ctx.levelNode l'' j
  root : m'.root = m.root
  trace : m.Traces (Quiet E) m'

lemma modifyBlock_self (c : TableCtx) (k : Nat) (f : MaptBlock → MaptBlock) :
    (c.modifyBlock k f).maptBlockArray k = (c.maptBlockArray k).map f := Function.update_self ..

lemma modifyBlock_ne {c : TableCtx} {k k' : Nat} {f : MaptBlock → MaptBlock} (h : k' ≠ k) :
    (c.modifyBlock k f).maptBlockArray k' = c.maptBlockArray k' := Function.update_of_ne h ..

lemma modifyBlock_comm (c : TableCtx) (k k' : Nat) {f g : MaptBlock → MaptBlock}
    (h : ∀ b, f (g b) = g (f b)) :
    (c.modifyBlock k f).modifyBlock k' g = (c.modifyBlock k' g).modifyBlock k f := by
  unfold TableCtx.modifyBlock
  by_cases hk : k' = k
  · subst hk
    simp only [Function.update_self, Function.update_idem, Option.map_map]
    rw [show g ∘ f = f ∘ g from funext (fun b => (h b).symm)]
  · simp only [Function.update_of_ne hk, Function.update_of_ne (Ne.symm hk)]
    rw [Function.update_comm (Ne.symm hk)]

/-- Field stores as a change of the block that holds the node. -/
def storeAt (off : Nat) (fs : List (TableNode → TableNode)) (b : MaptBlock) : MaptBlock :=
  { b with blockAddr := Function.update b.blockAddr off (applyStores fs (b.blockAddr off)) }

/-- The stores on a node commute with all that does not touch the nodes of its block. -/
lemma stores_ctx (hl : ∃ b, m.ctx.maptBlockArray (l / 4) = some b)
    (fs : List (TableNode → TableNode)) :
    (m.stores (slotRef l i) fs).ctx =
      m.ctx.modifyBlock (l / 4) (storeAt (512 * (l % 4) + i) fs) := by
  obtain ⟨b, hb⟩ := hl
  obtain ⟨es, hs, _⟩ := stores_slot (i := i) hb fs
  rw [hs, modifyBlock_eq hb, levelNode_of_block hb]
  simp only [TableCtx.putNode, Function.update_eq_self]
  rfl

lemma stores_mark (hl : ∃ b, m.ctx.maptBlockArray (l / 4) = some b) (l' : Nat)
    (fs : List (TableNode → TableNode)) :
    (m.stores (slotRef l i) fs).ctx.mark l' =
      (({ m with ctx := m.ctx.mark l' } : Machine).stores (slotRef l i) fs).ctx := by
  obtain ⟨b, hb⟩ := hl
  rw [stores_ctx ⟨b, hb⟩, stores_ctx]
  · exact modifyBlock_comm
      { m.ctx with levelBlockBitmap := ummuSetBit l' m.ctx.levelBlockBitmap } _ _
      (f := storeAt _ fs) (g := fun b => { b with levelCnt := inc16 b.levelCnt }) (fun _ => rfl)
  · by_cases hk : l / 4 = l' / 4
    · exact ⟨_, by rw [hk]; simp only [mark_eq (hk ▸ hb)]; exact recount_block ..⟩
    · refine ⟨b, ?_⟩
      simp only [TableCtx.mark, TableCtx.modifyBlock, Function.update_of_ne hk]
      exact hb

lemma stores_map (hl : ∃ b, m.ctx.maptBlockArray (l / 4) = some b) {k : Nat} (hk : l / 4 ≠ k)
    (b' : MaptBlock) (fs : List (TableNode → TableNode)) :
    (m.stores (slotRef l i) fs).ctx.map k b' =
      (({ m with ctx := m.ctx.map k b' } : Machine).stores (slotRef l i) fs).ctx := by
  rw [stores_ctx hl, stores_ctx (by simpa only [map_ne hk] using hl)]
  unfold TableCtx.map TableCtx.modifyBlock
  simp only [Function.update_of_ne hk]
  rw [Function.update_comm hk]

/-- The stores of an allocation after `next_block` is cleared. -/
def linkRest (far : Bool) (l' : Nat) : List (TableNode → TableNode) :=
  (if far then [fun n => { n with nextBlock := true }] else []) ++
    [fun n => { n with nextLvIndex := BitVec.ofNat 16 (l' / 4) },
     fun n => { n with nextLvOffsetLow := lvlOffsetLow (512 * (l' % 4)) },
     fun n => { n with nextLvOffsetHigh := lvlOffsetHigh (512 * (l' % 4)) }]

def linkStores (far : Bool) (l' : Nat) : List (TableNode → TableNode) :=
  [fun n => { n with nextBlock := false }] ++ linkRest far l'

lemma applyStores_linkStores (l l' : Nat) (n : TableNode) :
    applyStores (linkStores (decide (l' / 4 ≠ l / 4)) l') n = linkNode l l' n := by
  by_cases h : l' / 4 = l / 4
  · simp [linkStores, linkRest, linkNode, applyStores, h]
  · simp [linkStores, linkRest, linkNode, applyStores, h]

lemma stores_append (r : NodeRef) (fs fs' : List (TableNode → TableNode)) :
    m.stores r (fs ++ fs') = (m.stores r fs).stores r fs' := List.foldl_append ..

/-- Taking a level block, from the table context in which it is taken and the node is not yet
linked. -/
lemma allocStep_of_ctx {m' : Machine} {c : TableCtx} {l' : Nat} (h : m.Inv z)
    (hl : l ∈ m.ctx.used) (hi : i < 512) (hv : (m.ctx.levelNode l i).valid = true)
    (hc : CtxInv z c) (hfresh : l' ∉ m.ctx.used) (hused : c.used = insert l' m.ctx.used)
    (hnodes : ∀ l'' ∈ m.ctx.used, ∀ j, c.levelNode l'' j = m.ctx.levelNode l'' j)
    (hempty : ∀ j < 512, (c.levelNode l' j).valid = false)
    (hctx : m'.ctx = (({ m with ctx := c } : Machine).stores (slotRef l i)
      (linkStores (decide (l' / 4 ≠ l / 4)) l')).ctx)
    (hmaps : FreshMaps z m'.maps) (hroot : m'.root = m.root)
    (htrace : m.Traces (Quiet E) m') : AllocStep z E m l i l' m' := by
  have hl' : l ∈ c.used := hused ▸ Or.inr hl
  have hn : c.levelNode l i = m.ctx.levelNode l i := hnodes l hl i
  have hval : (linkNode l l' (m.ctx.levelNode l i)).valid = true := hv
  have hstep := stores_step (z := z) (E := E) (m := { m with ctx := c }) (l := l) (i := i)
    ⟨hc, h.maps⟩ hl' hi (linkStores (decide (l' / 4 ≠ l / 4)) l')
  simp only [applyStores_linkStores, hn] at hstep
  have hstep' := hstep (hval.trans hv.symm) (fun _ hf => by rw [hval] at hf; cases hf)
  have hne : l' ≠ l := fun he => hfresh (he ▸ hl)
  refine ⟨⟨hctx ▸ hstep'.inv.ctx, hmaps⟩, hfresh, ?_, ?_, fun j hj => ?_, fun l'' hl'' j hj he => ?_,
    hroot, htrace⟩
  · rw [hctx, hstep'.used]
    exact hused
  · rw [hctx]
    exact hstep'.node
  · rw [hctx, hstep'.frame l' j hj (fun he => hne he.1)]
    exact hempty j hj
  · rw [hctx, hstep'.frame l'' j hj he]
    exact hnodes l'' hl'' j

/-- A failed allocation leaves the node as it was, up to `next_block`. -/
structure AllocFail (z : Prop) (E : Set TableError) (m : Machine) (l i : Nat)
    (m' : Machine) : Prop where
  step : ∃ x, NodeStep z E m l i { m.ctx.levelNode l i with nextBlock := x } m'
  errno : 0 < m'.errno

lemma stores_congr {m m' : Machine} (hl : ∃ b, m.ctx.maptBlockArray (l / 4) = some b)
    (h : m'.ctx = m.ctx) (fs : List (TableNode → TableNode)) :
    (m'.stores (slotRef l i) fs).ctx = (m.stores (slotRef l i) fs).ctx := by
  rw [stores_ctx hl, stores_ctx (by rwa [h]), h]

lemma stores_rest (E : Set TableError) (hl : ∃ b, m.ctx.maptBlockArray (l / 4) = some b)
    (fs : List (TableNode → TableNode)) :
    (m.stores (slotRef l i) fs).root = m.root ∧ (m.stores (slotRef l i) fs).maps = m.maps ∧
      m.Traces (Quiet E) (m.stores (slotRef l i) fs) := by
  obtain ⟨b, hb⟩ := hl
  obtain ⟨es, hs, hes⟩ := stores_slot (i := i) hb fs
  rw [hs]
  refine ⟨rfl, rfl, es, rfl, fun e he => ?_⟩
  obtain ⟨c, rfl⟩ := hes e he
  trivial

lemma stores_mapped (hl : ∃ b, m.ctx.maptBlockArray (l / 4) = some b) (k : Nat)
    (fs : List (TableNode → TableNode)) :
    ((m.stores (slotRef l i) fs).ctx.maptBlockArray k).isSome =
      (m.ctx.maptBlockArray k).isSome := by
  rw [stores_ctx hl]
  by_cases hk : k = l / 4
  · rw [hk, modifyBlock_self, Option.isSome_map]
  · rw [modifyBlock_ne hk]

/-- The link of a node to level block `l'`, on a machine whose table context has the mapt block of
`l'`. -/
lemma link_step {q : Machine} {c : TableCtx} {l' : Nat} (h : m.Inv z) (hl : l ∈ m.ctx.used)
    (hi : i < 512) (hv : (m.ctx.levelNode l i).valid = true) (hc : CtxInv z (c.mark l'))
    (hfresh : l' ∉ m.ctx.used) (hused : c.used = m.ctx.used)
    (hnodes : ∀ l'' ∈ m.ctx.used, ∀ j, (c.mark l').levelNode l'' j = m.ctx.levelNode l'' j)
    (hempty : ∀ j < 512, ((c.mark l').levelNode l' j).valid = false)
    (hcl : ∃ b, c.maptBlockArray (l / 4) = some b)
    (hctx : q.ctx = (({ m with ctx := c } : Machine).stores (slotRef l i)
      [fun n => { n with nextBlock := false }]).ctx)
    (hmaps : FreshMaps z q.maps) (hroot : q.root = m.root)
    (htrace : m.Traces (Quiet E) q) :
    ∃ m', linkLevelBlock (slotRef l i) (l' / 4) l'
        (if l' / 4 ≠ l / 4 then q.store (slotRef l i) (fun n => { n with nextBlock := true })
          else q) = (some (slotRef l' 0), m') ∧ AllocStep z E m l i l' m' := by
  obtain ⟨far, hfar⟩ : ∃ far, far = decide (l' / 4 ≠ l / 4) := ⟨_, rfl⟩
  have hcl₁ : ∃ b, q.ctx.maptBlockArray (l / 4) = some b := by
    rw [hctx]
    exact Option.isSome_iff_exists.mp (by
      rw [stores_mapped (m := { m with ctx := c }) hcl]
      exact Option.isSome_iff_exists.mpr hcl)
  have hgo : linkLevelBlock (slotRef l i) (l' / 4) l'
      (if l' / 4 ≠ l / 4 then q.store (slotRef l i) (fun n => { n with nextBlock := true })
        else q) = (some (slotRef l' 0), { q.stores (slotRef l i) (linkRest far l') with
          ctx := (q.stores (slotRef l i) (linkRest far l')).ctx.mark l' }) := by
    by_cases hk : l' / 4 ≠ l / 4
    · simp only [hfar, if_pos hk, decide_eq_true hk]
      rfl
    · simp only [hfar, if_neg hk, decide_eq_false hk]
      rfl
  refine ⟨_, hgo, allocStep_of_ctx h hl hi hv hc hfresh ?_ hnodes hempty ?_ ?_ ?_ ?_⟩
  · rw [used_mark, hused]
  · rw [← hfar, ← stores_mark (m := { m with ctx := c }) hcl, linkStores, stores_append]
    exact congrArg (fun c => c.mark l') (stores_congr (hctx ▸ hcl₁) hctx _)
  · exact (stores_rest E hcl₁ _).2.1 ▸ hmaps
  · exact (stores_rest E hcl₁ _).1.trans hroot
  · exact htrace.trans (stores_rest E hcl₁ _).2.2

/-- Clearing `next_block` of a valid node, and nothing that `CtxInv` is about. -/
lemma allocFail_of_ctx {m' : Machine} (h : m.Inv z) (hl : l ∈ m.ctx.used) (hi : i < 512)
    (hv : (m.ctx.levelNode l i).valid = true)
    (hctx : m'.ctx = (m.stores (slotRef l i) [fun n => { n with nextBlock := false }]).ctx)
    (hmaps : FreshMaps z m'.maps) (hroot : m'.root = m.root) (htrace : m.Traces (Quiet E) m')
    (herrno : 0 < m'.errno) : AllocFail z E m l i m' := by
  have hstep := stores_step (E := E) h hl hi [fun n => { n with nextBlock := false }] rfl
    (fun _ hf => absurd (hf.symm.trans hv) Bool.false_ne_true)
  exact ⟨⟨false, ⟨hctx ▸ hstep.inv.ctx, hmaps⟩, by rw [hctx, hstep.used], by
    rw [hctx, hstep.node]; rfl, fun l' j hj hne => by rw [hctx, hstep.frame l' j hj hne], hroot,
    htrace⟩, herrno⟩

/-- A new mapt block comes from the next mapping, or the machine keeps all but `errno`, the mappings
used up and the descriptor that it took and gave back. -/
lemma newBlock_spec (E : Set TableError) (size k : Nat) (m : Machine) :
    (∃ m', ummuAllocNewMaptBlock size k m = (false, m') ∧ m'.ctx = m.ctx ∧ m'.root = m.root ∧
      0 < m'.errno ∧ m'.maps ⊆ m.maps ∧ m.Traces (Quiet E) m') ∨
    ∃ mem rest m', m.maps = .mapped mem :: rest ∧ (m.ctx.expan = true ∨ k = 0) ∧
      ummuAllocNewMaptBlock size k m = (true, m') ∧
      m'.ctx = m.ctx.map k ⟨mem, size, k, 0, fun _ => 0⟩ ∧ m'.root = m.root ∧ m'.maps = rest ∧
      m.Traces (Quiet E) m' := by
  have herange : (0 : Int) < erange := by decide
  have henomem : (0 : Int) < enomem := by decide
  have hboth : m.Traces (Quiet E) ((m.acquire (.maptBlock k)).release (.maptBlock k)) :=
    (Traces.log trivial).trans (Traces.log trivial)
  unfold ummuAllocNewMaptBlock
  by_cases hexp : m.ctx.expan ≠ true ∧ k ≠ 0
  · exact Or.inl ⟨_, if_pos hexp, rfl, rfl, herange, List.Subset.refl _, Traces.of_eq rfl⟩
  · simp only [if_neg hexp]
    cases hmaps : m.maps with
    | nil =>
      simp only
      exact Or.inl ⟨_, rfl, rfl, rfl, henomem, List.nil_subset _, Traces.of_eq rfl⟩
    | cons o rest =>
      have hsub : rest ⊆ o :: rest := List.subset_cons_self _ _
      cases o with
      | callocFailed => exact Or.inl ⟨_, rfl, rfl, rfl, henomem, hsub, Traces.of_eq rfl⟩
      | mmapFailed => exact Or.inl ⟨_, rfl, rfl, rfl, henomem, hsub, hboth.trans (Traces.of_eq rfl)⟩
      | mapped mem =>
        by_cases hsize : tableBlockSizeOk size = true
        · refine Or.inr ⟨mem, rest, _, rfl, ?_, if_pos hsize, rfl, rfl, rfl,
            (Traces.log (m := m) trivial).trans ((Traces.log trivial).trans (Traces.of_eq rfl))⟩
          by_contra hn
          exact hexp ⟨fun he => hn (Or.inl he), fun he => hn (Or.inr he)⟩
        · exact Or.inl ⟨_, if_neg hsize, rfl, rfl, henomem, hsub, hboth.trans (Traces.of_eq rfl)⟩

/-- `ummu_alloc_level_block` for a valid node of a level block in use: it links the node to a
level block that was not in use, or fails with `errno` set. -/
theorem alloc_spec (h : m.Inv z) (hl : l ∈ m.ctx.used) (hi : i < 512)
    (hv : (m.ctx.levelNode l i).valid = true) (hE : TableError.invalidLevelId ∈ E) :
    (∃ l' m', ummuAllocLevelBlock (slotRef l i) (some (l / 4)) m = (some (slotRef l' 0), m') ∧
      AllocStep z E m l i l' m') ∨
    ∃ m', ummuAllocLevelBlock (slotRef l i) (some (l / 4)) m = (none, m') ∧
      AllocFail z E m l i m' := by
  obtain ⟨b, hb⟩ := h.ctx.mapped_of_used hl
  have herange : (0 : Int) < erange := by decide
  unfold ummuAllocLevelBlock
  generalize hid : findFirstZeroBit m.ctx.levelBlockBitmap maxLevelIdSize = l'
  by_cases hlt : l' ≥ maxLevelIdSize
  · rw [if_pos hlt]
    refine Or.inr ⟨_, rfl, ⟨m.ctx.levelNode l i |>.nextBlock, ⟨h.ctx, h.maps⟩, rfl, rfl,
      fun _ _ _ _ => rfl, rfl, ?_⟩, herange⟩
    exact Traces.log (m := { m with errno := erange }) hE
  rw [if_neg hlt]
  simp only [show l' / perMaptLevelBlockCnt = l' / 4 from rfl]
  have hlt' : l' < 2048 := not_le.mp hlt
  have hfresh : l' ∉ m.ctx.used := by
    have := findFirstZeroBit_clear m.ctx.levelBlockBitmap maxLevelIdSize (by rw [hid]; exact hlt')
    rw [hid] at this
    exact fun hu => Bool.false_ne_true (this.symm.trans hu)
  let m₀ := m.stores (slotRef l i) [fun n => { n with nextBlock := false }]
  have hm₀ : m.store (slotRef l i) (fun n => { n with nextBlock := false }) = m₀ := rfl
  have hrest := stores_rest (i := i) E ⟨b, hb⟩ [fun n => { n with nextBlock := false }]
  have hmapped := stores_mapped (i := i) ⟨b, hb⟩ (l' / 4)
    [fun n => { n with nextBlock := false }]
  rw [hm₀]
  cases hk : m.ctx.maptBlockArray (l' / 4) with
  | some b' =>
    obtain ⟨b₁, hb₁⟩ := Option.isSome_iff_exists.mp (hmapped.trans (by rw [hk]; rfl))
    have hmark := mark_eq hk
    obtain ⟨m', h1, h2⟩ := link_step (q := m₀) (E := E) h hl hi hv
      (h.ctx.mark hfresh hlt' hk) hfresh rfl
      (fun l'' _ j => by rw [hmark, levelNode_recount hk])
      (fun j hj => by rw [hmark, levelNode_recount hk]; exact h.ctx.unused l' hfresh j hj)
      ⟨b, hb⟩ rfl (hrest.2.1 ▸ h.maps) hrest.1 hrest.2.2
    refine Or.inl ⟨l', m', ?_, h2⟩
    rw [← h1]
    simp only [m₀, hb₁, ne_eq, Option.some.injEq, eq_comm (a := l / 4)]
  | none =>
    have hk₁ : m₀.ctx.maptBlockArray (l' / 4) = none := by
      rw [← Option.isSome_eq_false_iff.trans Option.isNone_iff_eq_none]
      exact hmapped.trans (by rw [hk]; rfl)
    have hne : l / 4 ≠ l' / 4 := fun he => by rw [← he, hb] at hk; cases hk
    have hexpan : m₀.ctx.expan = m.ctx.expan := by
      rw [show m₀.ctx = _ from stores_ctx ⟨b, hb⟩ _]
      rfl
    simp only [hk₁]
    rcases newBlock_spec E m₀.ctx.blkExpSize (l' / 4) m₀ with
      ⟨m₁, hgo, hctx₁, hroot₁, he, hsub, htrace₁⟩ |
      ⟨mem, rest, m₁, hmaps, hor, hgo, hctx₁, hroot₁, hmaps₁, htrace₁⟩
    · rw [hgo]
      refine Or.inr ⟨_, rfl, allocFail_of_ctx h hl hi hv hctx₁ (fun mem hmem => ?_)
        (hroot₁.trans hrest.1) (hrest.2.2.trans htrace₁) he⟩
      exact h.maps mem (hrest.2.1 ▸ hsub hmem)
    · rw [hgo]
      have hmem := h.maps mem (by rw [← hrest.2.1]; exact hmaps ▸ List.mem_cons_self)
      have hexp : m.ctx.expan = true := by
        refine hexpan ▸ hor.resolve_right (fun h0 => ?_)
        have := (h.ctx.mapped_iff (l' / 4)).mpr (Or.inl h0)
        rw [hk] at this
        cases this
      let blk : MaptBlock := ⟨mem, m₀.ctx.blkExpSize, l' / 4, 0, fun _ => 0⟩
      have hblk := map_self m.ctx (l' / 4) blk
      have hinv := h.ctx.map_mark (b := blk) hfresh hlt' hk hexp rfl rfl (fun _ => rfl)
        (fun o => (hmem o).1) (fun hz o => (hmem o).2 hz)
      have hcl : ∃ b, (m.ctx.map (l' / 4) blk).maptBlockArray (l / 4) = some b :=
        ⟨b, by rw [map_ne hne]; exact hb⟩
      have hnode : ∀ l'' j, ((m.ctx.map (l' / 4) blk).mark l').levelNode l'' j =
          (m.ctx.map (l' / 4) blk).levelNode l'' j :=
        fun l'' j => by rw [mark_eq hblk, levelNode_recount hblk]
      have hstay : ∀ l'' ∈ m.ctx.used, ∀ j,
          ((m.ctx.map (l' / 4) blk).mark l').levelNode l'' j = m.ctx.levelNode l'' j := by
        intro l'' hl'' j
        rw [hnode]
        refine levelNode_map_ne (fun he => ?_) j
        have := (h.ctx.mapped_iff (l' / 4)).mpr (Or.inr ⟨l'', hl'', he⟩)
        rw [hk] at this
        cases this
      have hempty : ∀ j < 512,
          (((m.ctx.map (l' / 4) blk).mark l').levelNode l' j).valid = false := by
        intro j hj
        rw [hnode, levelNode_of_block hblk]
        exact (hmem _).1
      have hfreshMaps : FreshMaps z rest := fun mem hmem => h.maps mem (by
        rw [← hrest.2.1]
        exact hmaps ▸ List.mem_cons_of_mem _ hmem)
      obtain ⟨m', h1, h2⟩ := link_step (E := E) (q := m₁) h hl hi hv hinv hfresh rfl hstay hempty
        hcl (hctx₁.trans (stores_map ⟨b, hb⟩ hne blk _)) (hmaps₁ ▸ hfreshMaps)
        (hroot₁.trans hrest.1) (hrest.2.2.trans htrace₁)
      refine Or.inl ⟨l', m', ?_, h2⟩
      rw [if_pos (Ne.symm hne)] at h1
      exact h1

end Alloc

end Ummu
