import Ummu.Reach
import Ummu.TidCalls

/-!
# The tree of level blocks

In every state of a tid whose record allocations succeed, the links of the nodes form a tree over
the level blocks in use, and the bitmap, the counters and the block array say the same as the nodes.
-/

namespace Ummu

open Lib Machine Cell

/-- The path leads to a valid node of type 0 whose child is level block `l`. -/
def TableCtx.LinksTo (c : TableCtx) (path : List (Fin 512)) (l : Nat) : Prop :=
  ∃ q, c.reach rootPlace path = some q ∧ (c.node q.blk q.off).valid = true ∧
    (c.node q.blk q.off).type = false ∧ LinkTo (c.node q.blk q.off) l

/-- The five representations of the level blocks agree. -/
structure BlocksOk (c : TableCtx) : Prop where
  bitmap : ∀ l, testBit c.levelBlockBitmap l = true ↔ l = 0 ∨ ∃! path, c.LinksTo path l
  root : ∀ path, ¬c.LinksTo path 0
  linked : ∀ path q, c.reach rootPlace path = some q → (c.node q.blk q.off).valid = true →
    (c.node q.blk q.off).type = false → ∃ l, c.LinksTo path l
  depth : ∀ path q, c.reach rootPlace path = some q → path.length ≤ 4
  entryCnt : ∀ l, c.entryCount l = c.validCount l
  entryCnt_pos : ∀ l, 0 < l → testBit c.levelBlockBitmap l = true → c.entryCount l ≠ 0
  entryCnt_zero : ∀ l, testBit c.levelBlockBitmap l = false → c.entryCount l = 0
  levelCnt : ∀ k b, c.maptBlockArray k = some b → b.levelCnt = c.usedCount k
  array : ∀ k, (c.maptBlockArray k).isSome = true ↔
    k = 0 ∨ ∃ l, l / 4 = k ∧ testBit c.levelBlockBitmap l = true
  blockCnt : c.blockCnt = c.mappedCount
  expan : c.expan = false → ∀ k, (c.maptBlockArray k).isSome = true → k = 0
  nextBlock : ∀ path q, c.reach rootPlace path = some q → (c.node q.blk q.off).valid = true →
    (c.node q.blk q.off).type = false →
      ((c.node q.blk q.off).nextBlock = true ↔ (c.node q.blk q.off).nextLvIndex.toNat ≠ q.blk)

section Links

variable {z : NodeRule} {c : TableCtx} {sub : SegBlock 3} {i : Fin tableGeometry.slots}
  {path : List (Fin tableGeometry.slots)} {q : Place} {l l' : Nat} {n : TableNode}

lemma LinkTo.unique (h : LinkTo n l) (h' : LinkTo n l') : l = l' := by
  obtain ⟨h1, h2⟩ := h
  obtain ⟨h3, h4⟩ := h'
  omega

/-- A valid node of type 0 that is reached is an inner node of the tree. -/
lemma reach_link (h : BlockAt z c 0 0 sub) (hq : c.reach rootPlace (i :: path) = some q)
    (hv : (c.node q.blk q.off).valid = true) (ht : (c.node q.blk q.off).type = false) :
    ∃ id, (sub i).linkAt path = some id ∧ LinkTo (c.node q.blk q.off) id ∧
      (z.flags → (c.node q.blk q.off).nextBlock = decide (id / 4 ≠ q.blk)) := by
  obtain ⟨d, k, j, a, cell, _, _, hj, rfl, hcell, _, hlink⟩ := reach_cell (le_refl 3) h hq
  have hdiv : (512 * (k % 4) + j) / 512 = k % 4 := by omega
  cases cell with
  | empty => exact (Bool.false_ne_true (hcell.symm.trans hv)).elim
  | leaf p => exact (Bool.false_ne_true (ht.symm.trans hcell.2.1)).elim
  | inner p id sub' => exact ⟨id, hlink.symm, hcell.2.2.2.1, hcell.2.2.2.2.1⟩

/-- The links of the nodes that are reached are those of the tree. -/
lemma linksTo_iff (h : BlockAt z c 0 0 sub) :
    c.LinksTo (i :: path) l ↔ (sub i).linkAt path = some l := by
  constructor
  · rintro ⟨q, hq, hv, ht, hlink⟩
    obtain ⟨id, hid, hlink', _⟩ := reach_link h hq hv ht
    rw [hid, hlink'.unique hlink]
  · intro hid
    obtain ⟨p, hp⟩ := pieceAt_of_linkAt hid
    obtain ⟨q, hq⟩ := reach_of_piece (le_refl 3) h hp
    obtain ⟨d, k, j, a, cell, _, _, hj, rfl, hcell, _, hlink⟩ := reach_cell (le_refl 3) h hq
    rw [hid] at hlink
    cases cell with
    | empty => cases hlink
    | leaf p => cases hlink
    | inner p id sub' =>
      obtain rfl := Option.some.inj hlink
      exact ⟨_, hq, hcell.1, hcell.2.1, hcell.2.2.2.1⟩

lemma not_linksTo_nil : ¬c.LinksTo [] l := by
  rintro ⟨q, hq, _⟩
  cases hq

/-- The level blocks of the tree are those that a node links to, each from one path. -/
lemma mem_blockIds_iff (h : BlockAt z c 0 0 sub) (hsep : BlockSep 0 sub) :
    l ∈ blockIds sub ↔ ∃! path, c.LinksTo path l := by
  constructor
  · intro hl
    obtain ⟨i, hi⟩ := Set.mem_iUnion.mp hl
    obtain ⟨path, hpath⟩ := mem_ids_iff.mp hi
    refine ⟨i :: path, (linksTo_iff h).mpr hpath, fun path' hpath' => ?_⟩
    cases path' with
    | nil => exact (not_linksTo_nil hpath').elim
    | cons j path' =>
      have hj := (linksTo_iff h).mp hpath'
      by_cases hij : i = j
      · subst hij
        rw [(hsep.2.2 i).linkAt_unique hj hpath]
      · exact (Set.disjoint_left.mp (hsep.2.1 i j hij) hi (mem_ids_iff.mpr ⟨path', hj⟩)).elim
  · rintro ⟨path, hpath, _⟩
    cases path with
    | nil => exact (not_linksTo_nil hpath).elim
    | cons i path =>
      exact Set.mem_iUnion.mpr ⟨i, mem_ids_iff.mpr ⟨path, (linksTo_iff h).mp hpath⟩⟩

/-- A block of the tree holds a node. -/
lemma validCount_pos (h : BlockAt z c 0 0 sub) (hin : ∀ i, (sub i).Inhabited)
    (hl : l ∈ blockIds sub) : c.validCount l ≠ 0 := by
  have key : ∀ {d : Nat} (cell : SegCell d) (l' a : Nat) (n : TableNode), CellAt z c cell l' n a →
      cell.Inhabited → l ∈ cell.ids → c.validCount l ≠ 0 := by
    intro d cell
    induction cell with
    | empty => exact fun _ _ _ _ _ hl => hl.elim
    | leaf p => exact fun _ _ _ _ _ hl => hl.elim
    | inner p id sub ih =>
      intro l' a n hcell hin hl
      obtain ⟨_, _, _, _, _, hsub⟩ := hcell
      rcases hl with rfl | hl
      · obtain ⟨j, hj⟩ := hin.1
        have hv := mt (cellAt_valid (hsub j)).mp hj
        rw [Bool.not_eq_false] at hv
        rw [TableCtx.validCount]
        refine Finset.card_ne_zero.mpr ⟨j, ?_⟩
        exact Finset.mem_filter.mpr ⟨Finset.mem_range.mpr j.isLt, hv⟩
      · obtain ⟨j, hj⟩ := Set.mem_iUnion.mp hl
        exact ih j _ _ _ (hsub j) (hin.2 j) hj
  obtain ⟨i, hi⟩ := Set.mem_iUnion.mp hl
  exact key _ _ _ _ (h i) (hin i) hi

theorem TreeInv.blocksOk (h : TreeInv z c sub) (hflags : z.flags) (hin : ∀ i, (sub i).Inhabited) :
    BlocksOk c := by
  have hused : ∀ l, testBit c.levelBlockBitmap l = true ↔ l = 0 ∨ l ∈ blockIds sub := by
    intro l
    have hl : l ∈ c.used ↔ l ∈ foot 0 sub := by rw [h.used]
    exact hl
  refine ⟨fun l => ?_, fun path hpath => ?_, fun path q hq hv ht => ?_, fun path q hq => ?_,
    h.ctx.entryCnt, fun l h0 hl => ?_, fun l hl => ?_, h.ctx.levelCnt, fun k => ?_, h.ctx.blockCnt,
    h.ctx.expan, fun path q hq hv ht => ?_⟩
  · rw [hused, mem_blockIds_iff h.rep h.sep]
  · cases path with
    | nil => exact not_linksTo_nil hpath
    | cons i path => exact h.sep.1 i (mem_ids_iff.mpr ⟨path, (linksTo_iff h.rep).mp hpath⟩)
  · cases path with
    | nil => cases hq
    | cons i path =>
      obtain ⟨id, _, hlink, _⟩ := reach_link h.rep hq hv ht
      exact ⟨id, q, hq, hv, ht, hlink⟩
  · cases path with
    | nil => exact Nat.zero_le _
    | cons i path =>
      obtain ⟨d, _, _, _, _, hd, _⟩ := reach_cell (le_refl 3) h.rep hq
      rw [List.length_cons]
      omega
  · rw [h.ctx.entryCnt]
    exact validCount_pos h.rep hin (((hused l).mp hl).resolve_left (by omega))
  · rw [h.ctx.entryCnt, TableCtx.validCount, Finset.card_eq_zero, Finset.filter_eq_empty_iff]
    intro i hi hv
    have hnot : l ∉ c.used := fun hin => Bool.false_ne_true (hl.symm.trans hin)
    exact Bool.false_ne_true ((h.ctx.unused l hnot i (Finset.mem_range.mp hi)).symm.trans hv)
  · rw [h.ctx.mapped_iff]
    apply or_congr_right
    constructor
    · rintro ⟨l, h1, h2⟩
      exact ⟨l, h2, h1⟩
    · rintro ⟨l, h1, h2⟩
      exact ⟨l, h2, h1⟩
  · cases path with
    | nil => cases hq
    | cons i path =>
      obtain ⟨id, _, hlink, hflag⟩ := reach_link h.rep hq hv ht
      rw [hflag hflags, hlink.1, decide_eq_true_eq]

/-- The representations of the level blocks agree in every state of a table-mode tid. -/
theorem tidReach_blocksOk {y : Prop} {info : MaptInfo} {o : Option RangeTable}
    (h : TidReach y (fun _ call => call.RecordAlloc) info) (hb : info.blockBase = .tableCtx c o) :
    BlocksOk c := by
  obtain ⟨t, sub, rfl, hinv⟩ := tidReach_table h hb
  exact hinv.tree.blocksOk trivial (fun i => rep_inhabited (hinv.rep i))

theorem tidReach_blocksOk_page : ∃ c t,
    (pageGrant.run (newTid .zero)).info.blockBase = .tableCtx c (some t) ∧ BlocksOk c :=
  ⟨_, _, rfl, tidReach_blocksOk (pageGrant_reach (y := True) (n := .zero) rfl (fun _ => rfl)) rfl⟩

end Links

end Ummu
