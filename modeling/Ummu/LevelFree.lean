import Ummu.NodeStep

/-!
# Taking and giving back level blocks

`ummu_free_level_block` and `ummu_alloc_level_block` keep `CtxInv`; the level blocks that stay in
use keep their nodes.
-/

namespace Ummu

open Machine

section Count

variable {z : Prop} {c : TableCtx} {k l : Nat}

lemma mem_used {c : TableCtx} {l : Nat} : l ∈ c.used ↔ testBit c.levelBlockBitmap l = true :=
  Iff.rfl

/-- The bitmap loses bit `l`. -/
lemma used_clearBit (c : TableCtx) (l : Nat) :
    ({ c with levelBlockBitmap := ummuClearBit l c.levelBlockBitmap } : TableCtx).used =
      c.used \ {l} := by
  ext l'
  simp only [mem_used, testBit_ummuClearBit, Set.mem_sdiff, Set.mem_singleton_iff]
  by_cases h : l' = l <;> simp [h]

lemma used_setBit (c : TableCtx) (l : Nat) :
    ({ c with levelBlockBitmap := ummuSetBit l c.levelBlockBitmap } : TableCtx).used =
      insert l c.used := by
  ext l'
  simp only [mem_used, testBit_ummuSetBit, Set.mem_insert_iff]
  by_cases h : l' = l <;> simp [h]

/-- The marks of a mapt block when level block `l` is added to or taken from the used ones. -/
lemma usedCount_change (c c' : TableCtx) (l : Nat)
    (h : ∀ l', l' ≠ l → (l' ∈ c'.used ↔ l' ∈ c.used)) (k : Nat) :
    c'.usedCount k + (if l / 4 = k ∧ testBit c.levelBlockBitmap l = true then 1 else 0) =
      c.usedCount k + (if l / 4 = k ∧ testBit c'.levelBlockBitmap l = true then 1 else 0) := by
  unfold TableCtx.usedCount
  by_cases hk : l / 4 = k
  · have hcard := card_filter_change (n := 4) (i := l % 4)
      (p := fun j => testBit c.levelBlockBitmap (4 * k + j) = true)
      (q := fun j => testBit c'.levelBlockBitmap (4 * k + j) = true)
      (Nat.mod_lt _ (by omega)) (fun j hj hne => (h (4 * k + j) (by omega)).symm)
    rw [show 4 * k + l % 4 = l by omega] at hcard
    simpa only [hk, true_and] using hcard
  · simp only [hk, false_and, if_false, Nat.add_zero]
    refine congrArg Finset.card (Finset.filter_congr (fun j hj => ?_))
    have hj' := Finset.mem_range.mp hj
    exact h (4 * k + j) (by omega)

lemma usedCount_eq_zero (h : c.usedCount k = 0) {l : Nat} (hl : l / 4 = k) : l ∉ c.used := by
  intro hu
  have hmem : l % 4 ∈ (Finset.range 4).filter
      (fun j => testBit c.levelBlockBitmap (4 * k + j) = true) := by
    rw [Finset.mem_filter, Finset.mem_range, show 4 * k + l % 4 = l by omega]
    exact ⟨Nat.mod_lt _ (by omega), hu⟩
  exact absurd (Finset.card_eq_zero.mp h ▸ hmem) (Finset.notMem_empty _)

lemma usedCount_pos (hl : l ∈ c.used) : 1 ≤ c.usedCount (l / 4) := by
  by_contra h
  exact usedCount_eq_zero (by omega) rfl hl

lemma usedCount_le (c : TableCtx) (k : Nat) : c.usedCount k ≤ 4 :=
  le_trans (Finset.card_filter_le _ _) (le_of_eq (Finset.card_range 4))

lemma mappedCount_le (c : TableCtx) : c.mappedCount ≤ 512 :=
  le_trans (Finset.card_filter_le _ _) (le_of_eq (Finset.card_range 512))

lemma CtxInv.mapped_lt (h : CtxInv z c) (hk : (c.maptBlockArray k).isSome = true) : k < 512 := by
  rcases (h.mapped_iff k).mp hk with rfl | ⟨l, hl, rfl⟩
  · omega
  · have := h.used_lt l hl
    omega

end Count

section Free

variable {z : Prop} {c : TableCtx} {k l : Nat} {b : MaptBlock}

/-- Mapt block `b`, which is number `k`, gets a new level count, and the bitmap is replaced. -/
def TableCtx.recount (c : TableCtx) (k : Nat) (b : MaptBlock) (v : Nat) (bm : Bitmap) : TableCtx :=
  { c.putBlock k { b with levelCnt := v } with levelBlockBitmap := bm }

lemma recount_block (c : TableCtx) (k : Nat) (b : MaptBlock) (v : Nat) (bm : Bitmap) :
    (c.recount k b v bm).maptBlockArray k = some { b with levelCnt := v } :=
  Function.update_self ..

lemma recount_ne {k' v : Nat} {bm : Bitmap} (h : k' ≠ k) :
    (c.recount k b v bm).maptBlockArray k' = c.maptBlockArray k' := putBlock_ne h

lemma levelNode_recount {v : Nat} {bm : Bitmap} (hb : c.maptBlockArray k = some b) (l i : Nat) :
    (c.recount k b v bm).levelNode l i = c.levelNode l i := by
  by_cases hk : l / 4 = k
  · rw [levelNode_of_block (by rw [hk]; exact recount_block ..),
      levelNode_of_block (by rw [hk]; exact hb)]
  · exact levelNode_putBlock_ne hk i

lemma entryCount_recount {v : Nat} {bm : Bitmap} (hb : c.maptBlockArray k = some b) (l : Nat) :
    (c.recount k b v bm).entryCount l = c.entryCount l := by
  by_cases hk : l / 4 = k
  · rw [entryCount_of_block (by rw [hk]; exact recount_block ..),
      entryCount_of_block (by rw [hk]; exact hb)]
  · simp only [TableCtx.entryCount, recount_ne hk]

lemma isSome_recount {v : Nat} {bm : Bitmap} (hb : c.maptBlockArray k = some b) (k' : Nat) :
    ((c.recount k b v bm).maptBlockArray k').isSome = (c.maptBlockArray k').isSome := by
  by_cases hk : k' = k
  · rw [hk, recount_block, hb, Option.isSome_some, Option.isSome_some]
  · rw [recount_ne hk]

lemma block_recount {v k' : Nat} {bm : Bitmap} {b' : MaptBlock}
    (hb : c.maptBlockArray k = some b) (h : (c.recount k b v bm).maptBlockArray k' = some b') :
    ∃ b₀, c.maptBlockArray k' = some b₀ ∧ b'.blockId = b₀.blockId ∧
      b'.blockAddr = b₀.blockAddr ∧ b'.levelCnt = if k' = k then v else b₀.levelCnt := by
  by_cases hk : k' = k
  · rw [hk, recount_block] at h
    obtain rfl := Option.some.inj h
    exact ⟨b, hk ▸ hb, rfl, rfl, (if_pos hk).symm⟩
  · rw [recount_ne hk] at h
    exact ⟨b', h, rfl, rfl, (if_neg hk).symm⟩

/-- The table context after level block `l` of mapt block `b` is given back. -/
def TableCtx.unmark (c : TableCtx) (l : Nat) (b : MaptBlock) : TableCtx :=
  c.recount (l / 4) b (dec16 b.levelCnt) (ummuClearBit l c.levelBlockBitmap)

/-- The table context after mapt block `k` is unmapped. -/
def TableCtx.unmap (c : TableCtx) (k : Nat) : TableCtx :=
  { c with
    maptBlockArray := Function.update c.maptBlockArray k none
    blockCnt := dec16 c.blockCnt }

lemma used_unmark (c : TableCtx) (l : Nat) (b : MaptBlock) :
    (c.unmark l b).used = c.used \ {l} := used_clearBit c l

lemma unmark_block (c : TableCtx) (l : Nat) (b : MaptBlock) :
    (c.unmark l b).maptBlockArray (l / 4) = some { b with levelCnt := dec16 b.levelCnt } :=
  recount_block ..

lemma levelNode_unmark (hb : c.maptBlockArray (l / 4) = some b) (l' i : Nat) :
    (c.unmark l b).levelNode l' i = c.levelNode l' i := levelNode_recount hb l' i

lemma entryCount_unmark (hb : c.maptBlockArray (l / 4) = some b) (l' : Nat) :
    (c.unmark l b).entryCount l' = c.entryCount l' := entryCount_recount hb l'

lemma isSome_unmark (hb : c.maptBlockArray (l / 4) = some b) (k : Nat) :
    ((c.unmark l b).maptBlockArray k).isSome = (c.maptBlockArray k).isSome :=
  isSome_recount hb k

lemma block_unmark {b' : MaptBlock} (hb : c.maptBlockArray (l / 4) = some b)
    (h : (c.unmark l b).maptBlockArray k = some b') :
    ∃ b₀, c.maptBlockArray k = some b₀ ∧ b'.blockId = b₀.blockId ∧
      b'.blockAddr = b₀.blockAddr ∧
      b'.levelCnt = if k = l / 4 then dec16 b.levelCnt else b₀.levelCnt := block_recount hb h

/-- The counter of a mapt block after one of its level blocks is given back. -/
lemma levelCnt_unmark (h : CtxInv z c) (hl : l ∈ c.used) (hb : c.maptBlockArray (l / 4) = some b)
    {b' : MaptBlock} (hb' : (c.unmark l b).maptBlockArray k = some b') :
    b'.levelCnt = (c.unmark l b).usedCount k := by
  obtain ⟨b₀, h0, _, _, hcnt⟩ := block_unmark hb hb'
  have hchange := usedCount_change c (c.unmark l b) l
    (fun l' hne => by rw [used_unmark]; simp [hne]) k
  have hout : testBit (c.unmark l b).levelBlockBitmap l = false := by
    simp [TableCtx.unmark, TableCtx.recount]
  have hold := h.levelCnt k b₀ h0
  have hle := usedCount_le c k
  rw [hcnt]
  by_cases hk : k = l / 4
  · rw [if_pos hk]
    rw [if_pos ⟨hk.symm, hl⟩, if_neg (by simp [hout])] at hchange
    obtain rfl : b₀ = b := Option.some.inj (h0.symm.trans (hk ▸ hb))
    rw [dec16, if_neg (by omega)]
    omega
  · rw [if_neg hk]
    rw [if_neg (fun h => hk h.1.symm), if_neg (fun h => hk h.1.symm)] at hchange
    omega

/-- A level block without valid nodes is given back, and its mapt block stays mapped. -/
lemma CtxInv.unmark (h : CtxInv z c) (hl : l ∈ c.used) (h0 : l ≠ 0)
    (hb : c.maptBlockArray (l / 4) = some b)
    (hempty : ∀ i < 512, (c.levelNode l i).valid = false)
    (hstay : l / 4 = 0 ∨ (c.unmark l b).usedCount (l / 4) ≠ 0) : CtxInv z (c.unmark l b) := by
  refine ⟨?_, fun l' hl' => ?_, fun k => ?_, fun k b' hb' => ?_, fun k b' hb' => ?_,
    fun l' => ?_, fun l' hl' i hi => ?_, ?_, fun he k hk => ?_, fun hz k b' o hb' ho => ?_⟩
  · rw [used_unmark]
    exact ⟨h.root_used, fun he => h0 he.symm⟩
  · rw [used_unmark] at hl'
    exact h.used_lt l' hl'.1
  · rw [isSome_unmark hb, h.mapped_iff k, used_unmark]
    refine or_congr_right' (fun hk0 => ⟨?_, fun ⟨l', hl', hk⟩ => ⟨l', hl'.1, hk⟩⟩)
    rintro ⟨l', hl', hk⟩
    by_cases hkl : k = l / 4
    · have hpos := hstay.resolve_left (hkl ▸ hk0)
      obtain ⟨j, hj⟩ := Finset.card_pos.mp (Nat.pos_of_ne_zero hpos)
      obtain ⟨hj1, hj2⟩ := Finset.mem_filter.mp hj
      have hj3 := Finset.mem_range.mp hj1
      have hj4 : 4 * (l / 4) + j ∈ (c.unmark l b).used := hj2
      rw [used_unmark] at hj4
      exact ⟨_, hj4, by omega⟩
    · exact ⟨l', ⟨hl', fun he => hkl (by rw [← hk, he])⟩, hk⟩
  · obtain ⟨b₀, h0, hid, _⟩ := block_unmark hb hb'
    rw [hid]
    exact h.blockId k b₀ h0
  · exact levelCnt_unmark h hl hb hb'
  · rw [entryCount_unmark hb, h.entryCnt]
    simp only [TableCtx.validCount, levelNode_unmark hb]
  · rw [levelNode_unmark hb]
    rw [used_unmark] at hl'
    by_cases hll : l' = l
    · rw [hll]
      exact hempty i hi
    · exact h.unused l' (fun hu => hl' ⟨hu, hll⟩) i hi
  · rw [show (c.unmark l b).blockCnt = c.blockCnt from rfl, h.blockCnt]
    simp only [TableCtx.mappedCount, isSome_unmark hb]
  · rw [isSome_unmark hb] at hk
    exact h.expan he k hk
  · obtain ⟨b₀, h0, _, haddr, _⟩ := block_unmark hb hb'
    rw [haddr] at ho ⊢
    exact h.nonce hz k b₀ o h0 ho

lemma used_unmap (c : TableCtx) (k : Nat) : (c.unmap k).used = c.used := rfl

lemma unmap_self (c : TableCtx) (k : Nat) : (c.unmap k).maptBlockArray k = none :=
  Function.update_self ..

lemma unmap_ne {k' : Nat} (h : k' ≠ k) :
    (c.unmap k).maptBlockArray k' = c.maptBlockArray k' := Function.update_of_ne h ..

lemma levelNode_unmap_ne (h : l / 4 ≠ k) (i : Nat) :
    (c.unmap k).levelNode l i = c.levelNode l i := by
  simp only [TableCtx.levelNode, TableCtx.node, unmap_ne h]

lemma two_le_mappedCount (h : CtxInv z c) (hk : k ≠ 0)
    (hsome : (c.maptBlockArray k).isSome = true) : 2 ≤ c.mappedCount := by
  have hlt := h.mapped_lt hsome
  have hsub : ({0, k} : Finset Nat) ⊆
      (Finset.range 512).filter (fun k => (c.maptBlockArray k).isSome = true) := by
    intro x hx
    rw [Finset.mem_filter, Finset.mem_range]
    rcases Finset.mem_insert.mp hx with rfl | hx
    · exact ⟨by omega, (h.mapped_iff 0).mpr (Or.inl rfl)⟩
    · rw [Finset.mem_singleton.mp hx]
      exact ⟨hlt, hsome⟩
  calc 2 = ({0, k} : Finset Nat).card := (Finset.card_pair hk.symm).symm
    _ ≤ c.mappedCount := Finset.card_le_card hsub

/-- The last level block of a mapt block is given back, and the mapt block is unmapped. -/
lemma CtxInv.unmark_unmap (h : CtxInv z c) (hl : l ∈ c.used)
    (hb : c.maptBlockArray (l / 4) = some b) (hk0 : l / 4 ≠ 0)
    (hlast : (c.unmark l b).usedCount (l / 4) = 0) :
    CtxInv z ((c.unmark l b).unmap (l / 4)) := by
  have hnone : ∀ l', l' / 4 = l / 4 → l' ∉ (c.unmark l b).used :=
    fun l' hl' => usedCount_eq_zero hlast hl'
  have hused : ((c.unmark l b).unmap (l / 4)).used = c.used \ {l} := by
    rw [used_unmap, used_unmark]
  have hget : ∀ k b', ((c.unmark l b).unmap (l / 4)).maptBlockArray k = some b' →
      k ≠ l / 4 ∧ (c.unmark l b).maptBlockArray k = some b' := by
    intro k b' hb'
    by_cases hk : k = l / 4
    · rw [hk, unmap_self] at hb'
      cases hb'
    · rw [unmap_ne hk] at hb'
      exact ⟨hk, hb'⟩
  refine ⟨?_, fun l' hl' => ?_, fun k => ?_, fun k b' hb' => ?_, fun k b' hb' => ?_,
    fun l' => ?_, fun l' hl' i hi => ?_, ?_, fun he k hk => ?_, fun hz k b' o hb' ho => ?_⟩
  · rw [hused]
    refine ⟨h.root_used, fun he => hk0 ?_⟩
    rw [← Set.mem_singleton_iff.mp he]
  · rw [hused] at hl'
    exact h.used_lt l' hl'.1
  · rw [hused]
    by_cases hk : k = l / 4
    · rw [hk, unmap_self]
      refine ⟨fun hn => (by cases hn), ?_⟩
      rintro (h1 | ⟨l', hl', hk'⟩)
      · exact (hk0 h1).elim
      · exact (hnone l' hk' (by rwa [used_unmark])).elim
    · rw [unmap_ne hk, isSome_unmark hb, h.mapped_iff k]
      refine or_congr_right' (fun _ => ⟨?_, fun ⟨l', hl', hk'⟩ => ⟨l', hl'.1, hk'⟩⟩)
      rintro ⟨l', hl', hk'⟩
      exact ⟨l', ⟨hl', fun he => hk (by rw [← hk', he])⟩, hk'⟩
  · obtain ⟨_, hb''⟩ := hget k b' hb'
    obtain ⟨b₀, h0, hid, _⟩ := block_unmark hb hb''
    rw [hid]
    exact h.blockId k b₀ h0
  · obtain ⟨_, hb''⟩ := hget k b' hb'
    exact levelCnt_unmark h hl hb hb''
  · by_cases hk : l' / 4 = l / 4
    · have hn : ((c.unmark l b).unmap (l / 4)).maptBlockArray (l' / 4) = none := by
        rw [hk, unmap_self]
      have hval : ((c.unmark l b).unmap (l / 4)).validCount l' = 0 := by
        refine Finset.card_eq_zero.mpr (Finset.filter_eq_empty_iff.mpr (fun j _ => ?_))
        rw [levelNode_of_none hn]
        exact Bool.false_ne_true
      rw [hval]
      simp only [TableCtx.entryCount, hn]
    · have hcnt : ((c.unmark l b).unmap (l / 4)).entryCount l' = (c.unmark l b).entryCount l' := by
        simp only [TableCtx.entryCount, unmap_ne hk]
      rw [hcnt, entryCount_unmark hb, h.entryCnt]
      simp only [TableCtx.validCount, levelNode_unmap_ne hk, levelNode_unmark hb]
  · rw [hused] at hl'
    by_cases hk : l' / 4 = l / 4
    · rw [levelNode_of_none (by rw [hk, unmap_self])]
      rfl
    · rw [levelNode_unmap_ne hk, levelNode_unmark hb]
      exact h.unused l' (fun hu => hl' ⟨hu, fun he => hk (by rw [he])⟩) i hi
  · have hsome : (c.maptBlockArray (l / 4)).isSome = true := by rw [hb]; rfl
    have hcard := card_filter_change (n := 512)
      (p := fun k => (c.maptBlockArray k).isSome = true)
      (q := fun k => (((c.unmark l b).unmap (l / 4)).maptBlockArray k).isSome = true)
      (h.mapped_lt hsome) (fun k _ hne => by rw [unmap_ne hne, isSome_unmark hb])
    have hself : (((c.unmark l b).unmap (l / 4)).maptBlockArray (l / 4)).isSome = false := by
      rw [unmap_self]
      rfl
    have h2 := two_le_mappedCount h hk0 hsome
    have h3 := mappedCount_le c
    rw [if_pos hsome, if_neg (by simp [hself])] at hcard
    rw [show ((c.unmark l b).unmap (l / 4)).blockCnt = dec16 c.blockCnt from rfl,
      h.blockCnt, dec16, if_neg (by omega)]
    unfold TableCtx.mappedCount at *
    omega
  · by_cases hk' : k = l / 4
    · rw [hk', unmap_self] at hk
      cases hk
    · rw [unmap_ne hk', isSome_unmark hb] at hk
      exact h.expan he k hk
  · obtain ⟨_, hb''⟩ := hget k b' hb'
    obtain ⟨b₀, h0, _, haddr, _⟩ := block_unmark hb hb''
    rw [haddr] at ho ⊢
    exact h.nonce hz k b₀ o h0 ho

end Free

/-- Node `r` links to level block `l`. -/
def LinkTo (n : TableNode) (l : Nat) : Prop :=
  n.nextLvIndex.toNat = l / 4 ∧ n.lvOffset = 512 * (l % 4)

/-- What giving back level block `l` does. -/
structure FreeStep (z : Prop) (E : Set TableError) (m : Machine) (l : Nat) (m' : Machine) :
    Prop where
  inv : m'.Inv z
  used : m'.ctx.used = m.ctx.used \ {l}
  frame : ∀ l' ∈ m'.ctx.used, ∀ i, m'.ctx.levelNode l' i = m.ctx.levelNode l' i
  root : m'.root = m.root
  trace : m.Traces (Quiet E) m'

section FreeSpec

variable {z : Prop} {E : Set TableError} {m : Machine} {r : NodeRef} {l : Nat}

/-- The root level block is never given back. -/
lemma free_root (h : m.Inv z) (hr : LinkTo (m.node r) 0) : ummuFreeLevelBlock r m = m := by
  obtain ⟨b, hb⟩ := h.ctx.mapped_of_used h.ctx.root_used
  have hcnt := h.ctx.levelCnt 0 b hb
  have hpos := usedCount_pos h.ctx.root_used
  have hid := h.ctx.blockId 0 b hb
  simp only [Nat.zero_div] at hb hpos
  unfold ummuFreeLevelBlock
  simp only [hr.1, hr.2, Nat.zero_div, Nat.zero_mod, Nat.mul_zero, hb, hid, Nat.zero_mul,
    Nat.add_zero, ne_eq, not_true_eq_false, if_false]
  rw [if_neg (by omega)]

theorem free_spec (h : m.Inv z) (hr : LinkTo (m.node r) l) (hl : l ∈ m.ctx.used) (h0 : l ≠ 0)
    (hempty : ∀ i < 512, (m.ctx.levelNode l i).valid = false) :
    FreeStep z E m l (ummuFreeLevelBlock r m) := by
  obtain ⟨b, hb⟩ := h.ctx.mapped_of_used hl
  have hid := h.ctx.blockId _ b hb
  have hlevel : b.blockId * perMaptLevelBlockCnt + 512 * (l % 4) / maxMaptEntryIndex = l := by
    rw [hid]
    simp only [perMaptLevelBlockCnt, maxMaptEntryIndex]
    omega
  have hcnt : dec16 b.levelCnt = (m.ctx.unmark l b).usedCount (l / 4) :=
    levelCnt_unmark h.ctx hl hb (unmark_block m.ctx l b)
  have hgo : ummuFreeLevelBlock r m =
      if dec16 b.levelCnt = 0 ∧ m.ctx.blockCnt > 1 then
        ({ m with ctx := (m.ctx.unmark l b).unmap b.blockId }.release
          (.tableBuf b.blockId m.ctx.blkExpSize)).release (.maptBlock b.blockId)
      else { m with ctx := m.ctx.unmark l b } := by
    unfold ummuFreeLevelBlock
    simp only [hr.1, hr.2, hb, hlevel, ne_eq, h0, not_false_eq_true, if_true, Machine.modifyBlock,
      modifyBlock_eq hb, putBlock_self]
    rfl
  rw [hgo, hid, hcnt]
  by_cases hlast : (m.ctx.unmark l b).usedCount (l / 4) = 0 ∧ m.ctx.blockCnt > 1
  · rw [if_pos hlast]
    have hk0 : l / 4 ≠ 0 := by
      intro hk
      have h1 : (0 : Nat) ∈ (m.ctx.unmark l b).used := by
        rw [used_unmark]
        exact ⟨h.ctx.root_used, fun he => h0 he.symm⟩
      exact usedCount_eq_zero hlast.1 (by omega) h1
    have hused : ((m.ctx.unmark l b).unmap (l / 4)).used = m.ctx.used \ {l} := by
      rw [used_unmap, used_unmark]
    refine ⟨⟨h.ctx.unmark_unmap hl hb hk0 hlast.1, h.maps⟩, hused, ?_, rfl,
      (Traces.log (m := { m with ctx := (m.ctx.unmark l b).unmap (l / 4) }) trivial).trans
        (Traces.log trivial)⟩
    intro l' hl' i
    have hk : l' / 4 ≠ l / 4 := fun hk => usedCount_eq_zero hlast.1 hk hl'
    exact (levelNode_unmap_ne hk i).trans (levelNode_unmark hb l' i)
  · rw [if_neg hlast]
    refine ⟨⟨h.ctx.unmark hl h0 hb hempty ?_, h.maps⟩, used_unmark .., ?_, rfl,
      Traces.of_eq rfl⟩
    · by_cases hk0 : l / 4 = 0
      · exact Or.inl hk0
      · refine Or.inr (fun hz => hlast ⟨hz, ?_⟩)
        have := two_le_mappedCount h.ctx hk0 (by rw [hb]; rfl)
        rw [h.ctx.blockCnt]
        omega
    · exact fun l' _ i => levelNode_unmark hb l' i

end FreeSpec

end Ummu
