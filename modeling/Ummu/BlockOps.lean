import Ummu.BlockChange

/-!
# Taking a node out of a block, and hanging a block below a leaf

The two steps that give back and take level blocks, as changes of a block.
-/

namespace Ummu

open Lib Machine Cell

section Vacate

variable {z : NodeRule} {E : Set TableError} {m m' : Machine} {pre : NodeRef} {id a d : Nat}
  {sub : SegBlock d} {i : Fin tableGeometry.slots} {p : Piece SegInfo}

/-- The entry count of a block tells whether its cells are all empty. -/
lemma entryCount_eq_zero (h : CtxInv z.zero m.ctx) (hrep : BlockAt z m.ctx id a sub) :
    m.ctx.entryCount id = 0 ↔ ∀ j, sub j = empty := by
  rw [h.entryCnt, TableCtx.validCount, Finset.card_eq_zero, Finset.filter_eq_empty_iff]
  constructor
  · intro hall j
    refine (cellAt_valid (hrep j)).mp ?_
    simpa using hall (Finset.mem_range.mpr j.isLt)
  · intro hall j hj hv
    have hcell := (cellAt_valid (hrep ⟨j, Finset.mem_range.mp hj⟩)).mpr (hall _)
    simp only [hcell] at hv
    cases hv

lemma entryCnt_eq (m : Machine) (id : Nat) : entryCnt m (id / 4) (id % 4) = m.ctx.entryCount id :=
  rfl

/-- The end of `ummu_table_clear_node` and `ummu_swap_next_level_node`: the block is given back
once its entry count is zero. -/
def releaseEmpty (pre : NodeRef) (id : Nat) (m : Machine) : Machine :=
  if entryCnt m (id / 4) (id % 4) = 0 then (ummuFreeLevelBlock pre m).stores pre unlinkStores
  else m

lemma foot_empty (he : ∀ j, sub j = empty) : foot id sub = {id} := by
  ext x
  rw [mem_foot, Set.mem_singleton_iff]
  refine ⟨fun h => h.resolve_right ?_, Or.inl⟩
  rintro ⟨j, hj⟩
  rw [he j] at hj
  exact hj

lemma applyStores_unlinkStores (n : TableNode) : applyStores unlinkStores n = unlinkNode n := rfl

/-- A block without nodes is given back. -/
lemma release_gone (hs : BlockState z m pre id a sub) (he : ∀ j, sub j = empty) :
    BlockGone z E m pre id sub ((ummuFreeLevelBlock pre m).stores pre unlinkStores) := by
  have hempty : ∀ j < 512, (m.ctx.levelNode id j).valid = false := fun j hj =>
    (cellAt_valid (hs.rep ⟨j, hj⟩)).mpr (he _)
  have hfoot : foot id sub = {id} := foot_empty he
  have hid : id ∈ m.ctx.used := hs.used (mem_foot.mpr (Or.inl rfl))
  rcases hs.linked with ⟨rfl, rfl⟩ | ⟨h0, l, k, rfl, hk, hl, hF, hv⟩
  · rw [free_root hs.inv hs.link, stores_root]
    refine ⟨⟨hs.inv.ctx, hs.inv.maps⟩, hempty, ?_, rfl, fun _ _ _ _ _ _ => rfl,
      fun h => (h rfl).elim, Traces.of_eq rfl⟩
    rw [if_pos rfl, hfoot]
    exact Own.refl (Set.singleton_subset_iff.mpr hid)
  · have hfree := free_spec (E := E) hs.inv hs.link hid h0 hempty
    have hne : l ≠ id := fun h => hF (hfoot ▸ h)
    have hl' : l ∈ (ummuFreeLevelBlock (slotRef l k) m).ctx.used := by
      rw [hfree.used]
      exact ⟨hl, hne⟩
    have hnode := hfree.frame l hl' k
    have hstep := stores_step (E := E) hfree.inv hl' hk unlinkStores rfl (by
      intro _ hf
      rw [applyStores_unlinkStores, hnode] at hf
      exact absurd (hf.symm.trans hv) Bool.false_ne_true)
    have hused : ((ummuFreeLevelBlock (slotRef l k) m).stores (slotRef l k) unlinkStores).ctx.used =
        m.ctx.used \ {id} := hstep.used.trans hfree.used
    refine ⟨hstep.inv, fun j hj => ?_, ?_, ?_, fun l' hl'' hF' j hj hne' => ?_, fun _ => ?_,
      hfree.trace.trans hstep.trace⟩
    · rw [hstep.frame id j hj (fun h => hne h.1.symm)]
      exact hfree.inv.ctx.unused id (by rw [hfree.used]; exact fun h => h.2 rfl) j hj
    · rw [if_neg h0, hfoot, hused]
      exact ⟨Set.singleton_subset_iff.mpr hid, (Set.union_empty _).symm,
        fun x hx => hx.2.elim⟩
    · rw [Machine.node_slotRef, hstep.node, applyStores_unlinkStores, hnode]
      rfl
    · have hne'' : l' ≠ id := fun h => hF' (hfoot ▸ h)
      rw [hstep.frame l' j hj (fun h => hne' (by rw [h.1, h.2]))]
      exact hfree.frame l' (by rw [hfree.used]; exact ⟨hl'', hne''⟩) j
    · exact hstep.root.trans hfree.root

/-- A leaf is taken out of its block. -/
theorem vacate_run (hs : BlockState z m pre id a sub) (hi : sub i = leaf p)
    (fs : List (TableNode → TableNode))
    (hv : (applyStores fs (m.ctx.levelNode id i)).valid = false)
    (hn : (applyStores fs (m.ctx.levelNode id i)).nonce = 0) :
    BlockRun z E m pre id a sub
      (releaseEmpty pre id (stepEntryCnt (id / 4) (id % 4) false (m.stores (slotRef id i) fs)))
      (Function.update sub i empty) := by
  have hid : id ∈ m.ctx.used := hs.used (mem_foot.mpr (Or.inl rfl))
  have hrep := hs.rep i
  rw [hi] at hrep
  have hstep := stores_count_step (E := E) hs.inv hid i.isLt fs false hrep.1 hv (fun _ => hn)
  have hkeep : BlockKeep z E m id a sub _ (Function.update sub i empty) :=
    BlockKeep.of_node hs hstep hv trivial (by rw [hi]; rfl)
  have hzero := entryCount_eq_zero hstep.inv.ctx hkeep.rep
  unfold releaseEmpty
  rw [entryCnt_eq]
  by_cases hc : (stepEntryCnt (id / 4) (id % 4) false
      (m.stores (slotRef id i) fs)).ctx.entryCount id = 0
  · rw [if_pos hc]
    have he := hzero.mp hc
    exact Or.inr ⟨he, hkeep.trans_gone hs (release_gone (hkeep.state hs) he)⟩
  · rw [if_neg hc]
    refine Or.inl ⟨?_, hkeep⟩
    by_contra hne
    exact hc (hzero.mpr (fun j => by_contra (fun hj => hne ⟨j, hj⟩)))

/-- A leaf gets an empty child block. -/
theorem alloc_keep {d : Nat} {sub : SegBlock (d + 1)} {i : Fin tableGeometry.slots} {l' : Nat}
    (hs : BlockState z m pre id a sub) (hi : sub i = leaf p)
    (h : AllocStep z.zero E m id i l' m') :
    BlockKeep z E m id a sub (m'.store (slotRef id i) (fun n => { n with type := false }))
      (Function.update sub i (inner p l' (fun _ => empty))) := by
  have hid : id ∈ m.ctx.used := hs.used (mem_foot.mpr (Or.inl rfl))
  have hrep := hs.rep i
  rw [hi] at hrep
  obtain ⟨h1, _, h3⟩ := hrep
  have hne : l' ≠ id := fun he => h.fresh (he ▸ hid)
  have hstep : NodeStep z.zero E m' id i _ (m'.store (slotRef id i)
      (fun n => { n with type := false })) :=
    stores_step (E := E) h.inv (h.used ▸ Or.inr hid) i.isLt [fun n => { n with type := false }]
      rfl (fun _ hf => by
        rw [h.node] at hf
        exact absurd (hf.symm.trans h1) Bool.false_ne_true)
  have hlt : l' < 2048 := h.inv.ctx.used_lt l' (h.used ▸ Or.inl rfl)
  have hlink := linkTo_linkNode (l := id) (n := m.ctx.levelNode id i) hlt
  refine BlockKeep.of_cell hs hstep.inv ?_ ⟨fun _ h => h, fun _ _ _ => Set.disjoint_empty _,
    fun _ => trivial⟩ ?_ (fun l hl _ j hj hne' => ?_) (hstep.root.trans h.root)
    (h.trace.trans hstep.trace)
  · rw [hstep.node, h.node]
    refine ⟨h1, rfl, h3.relink .., ⟨hlink.1, hlink.2⟩, fun _ => rfl, fun j => ?_⟩
    rw [hstep.frame l' j j.isLt (fun he => hne he.1)]
    exact h.empty j j.isLt
  · have hids : (inner p l' (fun _ => empty) : SegCell (d + 1)).ids = {l'} := by
      ext x
      simp only [ids_inner, blockIds, ids_empty, Set.iUnion_empty, Set.union_empty]
    rw [hids, hi, ids_leaf, hstep.used, h.used]
    refine ⟨Set.empty_subset _, ?_, ?_⟩
    · rw [Set.sdiff_empty, Set.union_comm]
      rfl
    · rintro x ⟨hx, rfl⟩
      exact (h.fresh hx).elim
  · rw [hstep.frame l j hj hne']
    exact h.frame l hl j hj hne'

end Vacate

end Ummu
