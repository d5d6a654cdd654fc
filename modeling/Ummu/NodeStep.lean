import Ummu.LevelStore

/-!
# Steps on one node

The field stores of the table functions, together with the counter updates behind them, change
one node of a level block that is in use and keep `CtxInv`.
-/

namespace Ummu

/-- Blocks that are mapped in the coming allocations hold no valid node; under `z` they hold no
nonce either. -/
def FreshMaps (z : Prop) (maps : List MapOutcome) : Prop :=
  ∀ mem, MapOutcome.mapped mem ∈ maps → ∀ o, (mem o).valid = false ∧ (z → (mem o).nonce = 0)

/-- Node addresses stay among the four level blocks of a mapt block, levels are those of the table,
and only the errors of `E` are logged. -/
def Quiet (E : Set TableError) : Event → Prop
  | .access pos _ => pos < 2048
  | .rangeBits level => level ≤ maxLevelIndex
  | .error e => e ∈ E
  | .store _ _ => True
  | .resource _ => True

namespace Machine

structure Inv (z : Prop) (m : Machine) : Prop where
  ctx : CtxInv z m.ctx
  maps : FreshMaps z m.maps

/-- What happens from `m` to `m'` satisfies `Q`. -/
def Traces (Q : Event → Prop) (m m' : Machine) : Prop :=
  ∃ es, m'.trace = m.trace ++ es ∧ ∀ e ∈ es, Q e

section Traces

variable {Q R : Event → Prop} {m m' m'' : Machine}

lemma Traces.refl (Q : Event → Prop) (m : Machine) : Traces Q m m :=
  ⟨[], by simp, fun e he => by cases he⟩

lemma Traces.trans (h : Traces Q m m') (h' : Traces Q m' m'') : Traces Q m m'' := by
  obtain ⟨es, h1, h2⟩ := h
  obtain ⟨es', h3, h4⟩ := h'
  refine ⟨es ++ es', by rw [h3, h1, List.append_assoc], fun e he => ?_⟩
  rcases List.mem_append.mp he with h | h
  · exact h2 e h
  · exact h4 e h

lemma Traces.mono (h : Traces Q m m') (hQ : ∀ e, Q e → R e) : Traces R m m' := by
  obtain ⟨es, h1, h2⟩ := h
  exact ⟨es, h1, fun e he => hQ e (h2 e he)⟩

lemma Traces.log {e : Event} (he : Q e) : Traces Q m (m.log e) :=
  ⟨[e], rfl, fun e' he' => by rwa [List.mem_singleton.mp he']⟩

lemma Traces.of_eq (h : m'.trace = m.trace) : Traces Q m m' :=
  ⟨[], by simp [h], fun e he => by cases he⟩

lemma Traces.mem {e : Event} (h : Traces Q m m') (he : e ∈ m.trace) : e ∈ m'.trace := by
  obtain ⟨es, h1, _⟩ := h
  rw [h1]
  exact List.mem_append_left _ he

end Traces

end Machine

lemma Quiet.mono {E E' : Set TableError} (h : E ⊆ E') (e : Event)
    (he : Quiet E e) : Quiet E' e := by
  cases e with
  | error e => exact h he
  | access pos blkSize => exact he
  | rangeBits level => exact he
  | store ref ctx => trivial
  | resource e => trivial

open Machine

/-- Only node `i` of level block `l` differs between the nodes of `m` and `m'`. -/
structure NodeStep (z : Prop) (E : Set TableError) (m : Machine) (l i : Nat) (n : TableNode)
    (m' : Machine) : Prop where
  inv : m'.Inv z
  used : m'.ctx.used = m.ctx.used
  node : m'.ctx.levelNode l i = n
  frame : ∀ l' j, j < 512 → ¬(l' = l ∧ j = i) → m'.ctx.levelNode l' j = m.ctx.levelNode l' j
  root : m'.root = m.root
  trace : m.Traces (Quiet E) m'

section Steps

variable {z : Prop} {E : Set TableError} {m : Machine} {l i : Nat} {b : MaptBlock}

lemma NodeStep.trans {n n' : TableNode} {m' m'' : Machine} (h : NodeStep z E m l i n m')
    (h' : NodeStep z E m' l i n' m'') : NodeStep z E m l i n' m'' where
  inv := h'.inv
  used := h'.used.trans h.used
  node := h'.node
  frame := fun l' j hj hne => (h'.frame l' j hj hne).trans (h.frame l' j hj hne)
  root := h'.root.trans h.root
  trace := h.trace.trans h'.trace

/-- The node that a list of field stores leaves. -/
def applyStores (fs : List (TableNode → TableNode)) (n : TableNode) : TableNode :=
  fs.foldl (fun n f => f n) n

lemma putNode_same {c : TableCtx} (hb : c.maptBlockArray (l / 4) = some b) :
    c.putNode l i b (c.levelNode l i) (b.levelEntryCnt (l % 4)) = c := by
  rw [levelNode_of_block hb, TableCtx.putNode, Function.update_eq_self, Function.update_eq_self,
    TableCtx.putBlock, ← hb, Function.update_eq_self]

lemma putNode_putNode (c : TableCtx) (b : MaptBlock) (n n' : TableNode) (v v' : Nat) :
    (c.putNode l i b n v).putNode l i { b with
      blockAddr := Function.update b.blockAddr (512 * (l % 4) + i) n
      levelEntryCnt := Function.update b.levelEntryCnt (l % 4) v } n' v' =
      c.putNode l i b n' v' := by
  simp only [TableCtx.putNode, putBlock_putBlock, Function.update_idem]

lemma setNode_slot {c : TableCtx} (hb : c.maptBlockArray (l / 4) = some b) (n : TableNode) :
    c.setNode (l / 4) (512 * (l % 4) + i) n = c.putNode l i b n (b.levelEntryCnt (l % 4)) := by
  rw [TableCtx.setNode, modifyBlock_eq hb, TableCtx.putNode, Function.update_eq_self]

/-- Field stores on a node of a mapped block change just that node. -/
lemma stores_slot (hb : m.ctx.maptBlockArray (l / 4) = some b)
    (fs : List (TableNode → TableNode)) :
    ∃ es, m.stores (slotRef l i) fs = { m with
      ctx := m.ctx.putNode l i b (applyStores fs (m.ctx.levelNode l i)) (b.levelEntryCnt (l % 4))
      trace := m.trace ++ es } ∧ ∀ e ∈ es, ∃ c, e = .store (slotRef l i) c := by
  induction fs generalizing m b with
  | nil =>
    refine ⟨[], ?_, fun e he => by cases he⟩
    rw [applyStores, List.foldl_nil, putNode_same hb, List.append_nil]
    rfl
  | cons f fs ih =>
    have hctx : (m.store (slotRef l i) f).ctx =
        m.ctx.putNode l i b (f (m.ctx.levelNode l i)) (b.levelEntryCnt (l % 4)) :=
      setNode_slot hb _
    have hb' : (m.store (slotRef l i) f).ctx.maptBlockArray (l / 4) = some { b with
        blockAddr := Function.update b.blockAddr (512 * (l % 4) + i) (f (m.ctx.levelNode l i))
        levelEntryCnt := Function.update b.levelEntryCnt (l % 4) (b.levelEntryCnt (l % 4)) } := by
      rw [hctx]
      exact putNode_block ..
    obtain ⟨es, h1, h2⟩ := ih hb'
    refine ⟨.store (slotRef l i) (m.store (slotRef l i) f).ctx :: es, ?_, ?_⟩
    · rw [hctx, levelNode_putNode_self, putNode_putNode] at h1
      simp only [Function.update_self] at h1
      rw [show m.stores (slotRef l i) (f :: fs) =
        (m.store (slotRef l i) f).stores (slotRef l i) fs from rfl, h1]
      simp only [applyStores, List.foldl_cons, slotRef, Machine.store, List.append_assoc,
        List.singleton_append]
    · intro e he
      rcases List.mem_cons.mp he with rfl | he
      · exact ⟨_, rfl⟩
      · exact h2 e he

lemma stores_root (m : Machine) (fs : List (TableNode → TableNode)) :
    m.stores .root fs = { m with root := applyStores fs m.root } := by
  induction fs generalizing m with
  | nil => rfl
  | cons f fs ih => exact ih _

lemma entryCount_le {c : TableCtx} (h : CtxInv z c) (l : Nat) : c.entryCount l ≤ 512 := by
  rw [h.entryCnt]
  exact le_trans (Finset.card_filter_le _ _) (le_of_eq (Finset.card_range 512))

lemma entryCount_pos {c : TableCtx} (h : CtxInv z c) (hi : i < 512)
    (hv : (c.levelNode l i).valid = true) : 1 ≤ c.entryCount l := by
  rw [h.entryCnt]
  exact Finset.card_pos.mpr ⟨i, Finset.mem_filter.mpr ⟨Finset.mem_range.mpr hi, hv⟩⟩

/-- Stores on a node that do not change its valid bit. -/
lemma stores_step (h : m.Inv z) (hl : l ∈ m.ctx.used) (hi : i < 512)
    (fs : List (TableNode → TableNode))
    (hv : (applyStores fs (m.ctx.levelNode l i)).valid = (m.ctx.levelNode l i).valid)
    (hz : z → (applyStores fs (m.ctx.levelNode l i)).valid = false →
      (applyStores fs (m.ctx.levelNode l i)).nonce = 0) :
    NodeStep z E m l i (applyStores fs (m.ctx.levelNode l i)) (m.stores (slotRef l i) fs) := by
  obtain ⟨b, hb⟩ := h.ctx.mapped_of_used hl
  obtain ⟨es, hs, hes⟩ := stores_slot (i := i) hb fs
  rw [hs]
  refine ⟨⟨h.ctx.putNode hl hi hb hz ?_, h.maps⟩, rfl, levelNode_putNode_self .., fun l' j hj hne =>
    levelNode_putNode_ne hb hi hj hne, rfl, ⟨es, rfl, fun e he => ?_⟩⟩
  · rw [hv, entryCount_of_block hb]
  · obtain ⟨c, rfl⟩ := hes e he
    trivial

/-- Stores on a node that change its valid bit, and the entry count that follows. -/
lemma stores_count_step (h : m.Inv z) (hl : l ∈ m.ctx.used) (hi : i < 512)
    (fs : List (TableNode → TableNode)) (up : Bool)
    (hold : (m.ctx.levelNode l i).valid = !up)
    (hv : (applyStores fs (m.ctx.levelNode l i)).valid = up)
    (hz : up = false → (applyStores fs (m.ctx.levelNode l i)).nonce = 0) :
    NodeStep z E m l i (applyStores fs (m.ctx.levelNode l i))
      (stepEntryCnt (l / 4) (l % 4) up (m.stores (slotRef l i) fs)) := by
  obtain ⟨b, hb⟩ := h.ctx.mapped_of_used hl
  obtain ⟨es, hs, hes⟩ := stores_slot (i := i) hb fs
  have hctx : (stepEntryCnt (l / 4) (l % 4) up (m.stores (slotRef l i) fs)).ctx =
      m.ctx.putNode l i b (applyStores fs (m.ctx.levelNode l i))
        (if up then inc16 (b.levelEntryCnt (l % 4)) else dec16 (b.levelEntryCnt (l % 4))) := by
    rw [hs]
    simp only [stepEntryCnt, Machine.modifyBlock, modifyBlock_eq (putNode_block ..)]
    simp only [Function.update_self, Function.update_idem, TableCtx.putNode, putBlock_putBlock]
  have hrest : (stepEntryCnt (l / 4) (l % 4) up (m.stores (slotRef l i) fs)).maps = m.maps ∧
      (stepEntryCnt (l / 4) (l % 4) up (m.stores (slotRef l i) fs)).root = m.root ∧
      (stepEntryCnt (l / 4) (l % 4) up (m.stores (slotRef l i) fs)).trace = m.trace ++ es := by
    rw [hs]
    exact ⟨rfl, rfl, rfl⟩
  have hcnt := entryCount_of_block hb
  have hle := entryCount_le h.ctx l
  refine ⟨⟨?_, hrest.1 ▸ h.maps⟩, by rw [hctx]; rfl, by rw [hctx]; exact levelNode_putNode_self ..,
    fun l' j hj hne => by rw [hctx]; exact levelNode_putNode_ne hb hi hj hne, hrest.2.1,
    ⟨es, hrest.2.2, fun e he => ?_⟩⟩
  · rw [hctx]
    refine h.ctx.putNode hl hi hb (fun _ hf => hz (hv.symm.trans hf)) ?_
    rw [hold, hv]
    cases up with
    | true =>
      rw [if_pos rfl, inc16, if_neg (by omega)]
      simp only [Bool.not_true, Bool.false_eq_true, if_false, if_true]
      omega
    | false =>
      have hpos := entryCount_pos h.ctx hi hold
      rw [if_neg Bool.false_ne_true, dec16, if_neg (by omega)]
      simp only [Bool.not_false, Bool.false_eq_true, if_false, if_true]
      omega
  · obtain ⟨c, rfl⟩ := hes e he
    trivial

end Steps

end Ummu
