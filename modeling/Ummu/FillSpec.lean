import Ummu.ClearSpec

/-!
# Filling a range

`ummu_table_fill_node_by_level` follows the fill of the tree. It fails only where a leaf in its
way gets no child block.
-/

namespace Ummu

open Lib Machine Cell

section Fill

variable {z : NodeRule} {E : Set TableError} {m m' : Machine} {pre : NodeRef} {id a d : Nat}
  {sub sub' : SegBlock d} {i : Fin tableGeometry.slots}

/-- What an operation on one slot leaves: the new cell, and whether it went through. -/
def SlotDone (z : NodeRule) (E : Set TableError) (P : Machine → Prop) (m : Machine) (id a : Nat)
    (sub : SegBlock d) (i : Fin tableGeometry.slots) (R : SegCell d → Bool → Prop)
    (r : Int × Machine) : Prop :=
  ∃ c' ok, R c' ok ∧ BlockKeep z E m id a sub r.2 (Function.update sub i c') ∧
    (r.1 = 0 ↔ ok = true) ∧ (ok = false → P r.2)

/-- The walk over `[b, e]` is done with the slots before `k`, and has not changed the others. -/
def WalkDone (R : Step SegInfo tableGeometry d) (a b e : Nat) (sub : SegBlock d) (k : Nat)
    (cur : SegBlock d) : Prop :=
  (∀ x : Fin tableGeometry.slots, tableGeometry.index d a b ≤ x → x < k →
    R x (sub x) (tableGeometry.clipLo d a b x) (tableGeometry.clipHi d a e x) (cur x) true) ∧
  ∀ x : Fin tableGeometry.slots, (x < tableGeometry.index d a b ∨ k ≤ x) → cur x = sub x

/-- The walk over `[b, e]` stops at slot `k`. -/
def WalkStops (R : Step SegInfo tableGeometry d) (a b e : Nat) (sub : SegBlock d) (k : Nat)
    (sub' : SegBlock d) : Prop :=
  ∃ (j : Fin tableGeometry.slots) (cur : SegBlock d) (c' : SegCell d), j.val = k ∧
    WalkDone R a b e sub k cur ∧ sub' = Function.update cur j c' ∧
    R j (sub j) (tableGeometry.clipLo d a b j) (tableGeometry.clipHi d a e j) c' false

/-- A loop of the code whose rounds each do their step of a walk. -/
theorem walk_keep {R : Step SegInfo tableGeometry d} {body : Nat → Machine → Int × Machine}
    {P : Machine → Prop} {b e : Nat} (hs : BlockState z m pre id a sub)
    (hbe : tableGeometry.index d a b ≤ tableGeometry.index d a e)
    (he : tableGeometry.index d a e < tableGeometry.slots)
    (hbody : ∀ (m : Machine) (cur : SegBlock d) (i : Fin tableGeometry.slots),
      BlockState z m pre id a cur → tableGeometry.index d a b ≤ i → i ≤ tableGeometry.index d a e →
      cur i = sub i →
      SlotDone z E P m id a cur i
        (R i (cur i) (tableGeometry.clipLo d a b i) (tableGeometry.clipHi d a e i)) (body i m)) :
    ∃ sub' ok, Walk tableGeometry d a R sub b e sub' ok ∧
      BlockKeep z E m id a sub (forRange body (tableGeometry.index d a b)
        (tableGeometry.index d a e + 1 - tableGeometry.index d a b) m).2 sub' ∧
      ((forRange body (tableGeometry.index d a b)
        (tableGeometry.index d a e + 1 - tableGeometry.index d a b) m).1 = 0 ↔ ok = true) ∧
      (ok = false → P (forRange body (tableGeometry.index d a b)
        (tableGeometry.index d a e + 1 - tableGeometry.index d a b) m).2) := by
  have hstep : ∀ k m₁, tableGeometry.index d a b ≤ k → k < tableGeometry.index d a b +
      (tableGeometry.index d a e + 1 - tableGeometry.index d a b) →
      (∃ cur, BlockKeep z E m id a sub m₁ cur ∧ WalkDone R a b e sub k cur) →
      ((body k m₁).1 = 0 ∧ ∃ cur, BlockKeep z E m id a sub (body k m₁).2 cur ∧
        WalkDone R a b e sub (k + 1) cur) ∨
      ((body k m₁).1 ≠ 0 ∧ ∃ cur, BlockKeep z E m id a sub (body k m₁).2 cur ∧
        WalkStops R a b e sub k cur ∧ P (body k m₁).2) := by
    rintro k m₁ hbk hke ⟨cur, hkeep, hdone, hrest⟩
    have hks : k < tableGeometry.slots := by omega
    have hsame : cur ⟨k, hks⟩ = sub ⟨k, hks⟩ := hrest _ (Or.inr (le_refl k))
    obtain ⟨c', ok, hR, hk, hcode, hP⟩ := hbody m₁ cur ⟨k, hks⟩ (hkeep.state hs) hbk
      (show k ≤ tableGeometry.index d a e by omega) hsame
    rw [hsame] at hR
    cases ok with
    | true =>
      refine Or.inl ⟨hcode.mpr rfl, _, hkeep.trans hk, fun x hbx hxk => ?_, fun x hx => ?_⟩
      · by_cases hx : x = ⟨k, hks⟩
        · rw [hx, Function.update_self]
          exact hR
        · have hne : x.val ≠ k := fun h => hx (Fin.ext h)
          rw [Function.update_of_ne hx]
          exact hdone x hbx (by omega)
      · have hne : x.val ≠ k := by omega
        rw [Function.update_of_ne (fun h => hne (congrArg Fin.val h))]
        exact hrest x (by omega)
    | false =>
      exact Or.inr ⟨fun h => Bool.false_ne_true (hcode.mp h), _, hkeep.trans hk,
        ⟨⟨k, hks⟩, cur, c', rfl, ⟨hdone, hrest⟩, rfl, hR⟩, hP rfl⟩
  rcases forRange_rule
    (I := fun k m₁ => ∃ cur, BlockKeep z E m id a sub m₁ cur ∧ WalkDone R a b e sub k cur)
    (S := fun k _ m₁ => ∃ cur, BlockKeep z E m id a sub m₁ cur ∧ WalkStops R a b e sub k cur ∧
      P m₁)
    ⟨sub, hs.keep_refl, fun x h1 h2 => by omega, fun _ _ => rfl⟩ hstep with
    ⟨hcode, cur, hkeep, hdone, hrest⟩ |
    ⟨hcode, k, hbk, hke, _, hkeep, ⟨j, cur, c', rfl, ⟨hdone, hrest⟩, rfl, hR⟩, hP⟩
  · refine ⟨cur, true, ⟨⟨_, he⟩, hbe, le_refl _, fun _ => rfl, fun x h1 h2 => ?_, ?_,
      fun x hx => hrest x ?_⟩, hkeep, ⟨fun _ => rfl, fun _ => hcode⟩, fun h => by cases h⟩
    · exact hdone x h1 (by have := Fin.lt_def.mp h2; simp only at this; omega)
    · exact hdone ⟨_, he⟩ hbe (show tableGeometry.index d a e < _ by omega)
    · rcases hx with hx | hx
      · exact Or.inl hx
      · have := Fin.lt_def.mp hx
        simp only at this
        omega
  · refine ⟨_, false, ⟨j, hbk, by omega, fun h => (by cases h), fun x h1 h2 => ?_, ?_,
      fun x hx => ?_⟩, hkeep, ⟨fun h => (hcode h).elim, fun h => by cases h⟩, fun _ => hP⟩
    · rw [Function.update_of_ne (ne_of_lt h2)]
      exact hdone x h1 h2
    · rw [Function.update_self]
      exact hR
    · have hne : x ≠ j := by
        rintro rfl
        rcases hx with hx | hx
        · omega
        · exact lt_irrefl _ hx
      rw [Function.update_of_ne hne]
      exact hrest x (hx.imp_right (fun h => le_of_lt h))

/-- The rule allows the tokens that a fill leaves in the nodes it writes. -/
def NodeRule.Fills (z : NodeRule) (dat : DataInfo) : Prop :=
  ∀ p k, p.label = newSegInfo dat →
    (dat.tokenCheck = true → k = ⟨1, dat.tokenVal, dat.tokenVal⟩) →
    (dat.tokenCheck = false → z.zero → k.nonce = 0) → z.holds p k

lemma NodeRule.ofRecord_fills (z : Prop) (dat : DataInfo) : (NodeRule.ofRecord z).Fills dat := by
  intro p k hp h1 h0 h
  rw [hp] at h ⊢
  by_cases htc : dat.tokenCheck = true
  · simp [newSegInfo, htc, h1 htc]
  · have hf : dat.tokenCheck = false := by simpa using htc
    simp [newSegInfo, hf, h0 hf (h.resolve_left htc)]

/-- A node that `ummu_table_fill_node` has written denotes the new piece. -/
lemma denotes_fill {n : TableNode} {nb ne : Nat} {dat : DataInfo} (hz : z.Fills dat) (hd : d ≤ 3)
    (hbe : nb ≤ ne) (hne : ne < tableGeometry.span d) (hn : z.zero → n.nonce = 0) :
    Denotes z d a (applyStores (fillStores nb ne dat) n) ⟨a + nb, a + ne, newSegInfo dat⟩ := by
  have hle := span_le hd
  have hbase : (applyStores (fillStores nb ne dat) n).base = nb := by
    have h : (applyStores (fillStores nb ne dat) n).base =
        addrFull (tableAddrLow nb) (tableAddrHigh nb) := by
      unfold fillStores
      split <;> rfl
    rw [h, addrFull_tableAddr]
    exact Nat.mod_eq_of_lt (by omega)
  have hlimit : (applyStores (fillStores nb ne dat) n).limit = ne := by
    have h : (applyStores (fillStores nb ne dat) n).limit =
        addrFull (tableAddrLow ne) (tableAddrHigh ne) := by
      unfold fillStores
      split <;> rfl
    rw [h, addrFull_tableAddr]
    exact Nat.mod_eq_of_lt (by omega)
  refine ⟨by rw [hbase], by rw [hlimit], by rw [hbase, hlimit]; exact hbe, by rwa [hlimit], ?_,
    hz _ _ rfl (fun htc => ?_) (fun htc hzero => ?_)⟩
  · unfold fillStores
    by_cases htc : dat.tokenCheck = true
    · rw [if_pos htc]
      refine ⟨rfl, rfl, rfl, fun _ => ?_⟩
      simp [applyStores, newSegInfo, htc]
    · rw [if_neg htc]
      exact ⟨rfl, rfl, rfl, fun h => (htc h).elim⟩
  · simp [fillStores, applyStores, htc, TableNode.tokens]
  · simp [fillStores, applyStores, htc, hn hzero, TableNode.tokens]

lemma applyStores_fillStores (nb ne : Nat) (dat : DataInfo) (n : TableNode) :
    (applyStores (fillStores nb ne dat) n).valid = true ∧
      (applyStores (fillStores nb ne dat) n).type = true := by
  unfold fillStores
  constructor <;> split <;> rfl

/-- An empty node becomes a leaf. -/
lemma fillNode_keep {nb ne : Nat} {dat : DataInfo} (hz : z.Fills dat) (hd : d ≤ 3) (hbe : nb ≤ ne)
    (hne : ne < tableGeometry.span d) (hs : BlockState z m pre id a sub) (hi : sub i = empty) :
    BlockKeep z E m id a sub (ummuModifyEntryCnt (id / 4) (512 * (id % 4)) true
        (ummuTableFillNode (slotRef id i) nb ne dat m))
      (Function.update sub i (leaf ⟨tableGeometry.child d a i + nb,
        tableGeometry.child d a i + ne, newSegInfo dat⟩)) := by
  have hid : id ∈ m.ctx.used := hs.used (mem_foot.mpr (Or.inl rfl))
  have hidx : 512 * (id % 4) / maxMaptEntryIndex = id % 4 := by
    simp only [maxMaptEntryIndex]
    omega
  have hrep := hs.rep i
  rw [hi] at hrep
  have hnonce : z.zero → (m.ctx.levelNode id i).nonce = 0 := by
    intro hzero
    obtain ⟨b, hb⟩ := hs.inv.ctx.mapped_of_used hid
    rw [levelNode_of_block hb]
    exact hs.inv.ctx.nonce hzero _ b _ hb (by rw [← levelNode_of_block hb]; exact hrep)
  obtain ⟨h1, h2⟩ := applyStores_fillStores nb ne dat (m.ctx.levelNode id i)
  have hstep := stores_count_step (E := E) hs.inv hid i.isLt (fillStores nb ne dat) true hrep h1
    (fun h => by cases h)
  unfold ummuModifyEntryCnt
  rw [hidx]
  exact BlockKeep.of_node hs hstep ⟨h1, h2, denotes_fill hz hd hbe hne hnonce⟩ trivial
    (by rw [hi]; rfl)

/-- An allocation failure was logged. -/
def AllocFailed (m : Machine) : Prop := Event.error .allocLevelBlockFailed ∈ m.trace

/-- What `ummu_table_fill_node_by_level` does on a block of depth `d`. -/
def FillsByLevel (z : NodeRule) (E : Set TableError) (dat : DataInfo) (d : Nat) : Prop :=
  ∀ (m : Machine) (pre : NodeRef) (id a lb ll : Nat) (sub : SegBlock d),
    BlockState z m pre id a sub → lb ≤ ll → ll < tableGeometry.span (d + 1) →
    FillBlockReady tableGeometry d a sub (a + lb) (a + ll) →
    ∃ sub' ok, FillBlock tableGeometry (newSegInfo dat) d a sub (a + lb) (a + ll) sub' ok ∧
      BlockKeep z E m id a sub (ummuTableFillNodeByLevel dat (d + 1) pre lb ll m).2 sub' ∧
      ((ummuTableFillNodeByLevel dat (d + 1) pre lb ll m).1 = 0 ↔ ok = true) ∧
      (ok = false → AllocFailed (ummuTableFillNodeByLevel dat (d + 1) pre lb ll m).2)

/-- The round of `ummu_table_fill_node_by_level` on node `i`, after it took its address. -/
def fillSlot (dat : DataInfo) (rem blk off : Nat) (cur : NodeRef) (nb ne : Nat) (middle : Prop)
    [Decidable middle] (m : Machine) : Int × Machine :=
  if middle then
    if (m.node cur).valid = true then (-einval, m.error .nodeSupposeInvalid)
    else (0, ummuModifyEntryCnt blk off true (ummuTableFillNode cur nb ne dat m))
  else if (m.node cur).valid = true then
    if (m.node cur).type = true then
      match ummuAllocLevelBlock cur (some blk) m with
      | (none, m) => (-m.errno, m.error .allocLevelBlockFailed)
      | (some _, m) =>
        ummuTableFillNodeByLevel dat rem cur nb ne (m.store cur (fun n => { n with type := false }))
    else ummuTableFillNodeByLevel dat rem cur nb ne m
  else (0, ummuModifyEntryCnt blk off true (ummuTableFillNode cur nb ne dat m))


lemma fillBlockReady_empty (a b e : Nat) :
    FillBlockReady tableGeometry d a (fun _ => (empty : SegCell d)) b e :=
  fun _ _ _ => ⟨fun _ => rfl, fillReady_empty _ _ _ _⟩

/-- Below an inner node, the fill is that of its child block. -/
lemma fill_below {d : Nat} {sub : SegBlock (d + 1)} {dat : DataInfo} {p : Piece SegInfo}
    {k nb ne : Nat} {sub₁ : SegBlock d} (ih : FillsByLevel z E dat d)
    (hs : BlockState z m pre id a sub) (hi : sub i = inner p k sub₁) (hbe : nb ≤ ne)
    (hne : ne < tableGeometry.span (d + 1))
    (hready : FillBlockReady tableGeometry d (tableGeometry.child (d + 1) a i) sub₁
      (tableGeometry.child (d + 1) a i + nb) (tableGeometry.child (d + 1) a i + ne)) :
    SlotDone z E AllocFailed m id a sub i (fun c' ok => ∃ sub₂, c' = inner p k sub₂ ∧
        FillBlock tableGeometry (newSegInfo dat) d (tableGeometry.child (d + 1) a i) sub₁
          (tableGeometry.child (d + 1) a i + nb) (tableGeometry.child (d + 1) a i + ne) sub₂ ok)
      (ummuTableFillNodeByLevel dat (d + 1) (slotRef id i) nb ne m) := by
  obtain ⟨sub₂, ok, h1, h2, h3, h4⟩ := ih _ _ _ _ _ _ _ (hs.child hi) hbe hne hready
  exact ⟨inner p k sub₂, ok, ⟨sub₂, rfl, h1⟩, BlockKeep.of_child hs hi h2, h3, h4⟩

lemma SlotDone.imp {P : Machine → Prop} {R R' : SegCell d → Bool → Prop} {r : Int × Machine}
    (h : SlotDone z E P m id a sub i R r) (hR : ∀ c' ok, R c' ok → R' c' ok) :
    SlotDone z E P m id a sub i R' r := by
  obtain ⟨c', ok, h1, h2⟩ := h
  exact ⟨c', ok, hR c' ok h1, h2⟩

/-- A leaf in the way of a fill gets a child block, or the fill stops there. -/
lemma fill_leaf {d : Nat} {sub : SegBlock (d + 1)} {dat : DataInfo} {p : Piece SegInfo}
    {nb ne : Nat} (ih : FillsByLevel z E dat d) (hinv : TableError.invalidLevelId ∈ E)
    (halloc : TableError.allocLevelBlockFailed ∈ E) (hs : BlockState z m pre id a sub)
    (hi : sub i = leaf p) (hbe : nb ≤ ne) (hne : ne < tableGeometry.span (d + 1)) :
    SlotDone z E AllocFailed m id a sub i
      (FillSlot tableGeometry (newSegInfo dat) (d + 1) (tableGeometry.child (d + 1) a i) (sub i)
        (tableGeometry.child (d + 1) a i + nb) (tableGeometry.child (d + 1) a i + ne))
      (match ummuAllocLevelBlock (slotRef id i) (some (id / 4)) m with
        | (none, m) => (-m.errno, m.error .allocLevelBlockFailed)
        | (some _, m) => ummuTableFillNodeByLevel dat (d + 1) (slotRef id i) nb ne
            (m.store (slotRef id i) (fun n => { n with type := false }))) := by
  have hid : id ∈ m.ctx.used := hs.used (mem_foot.mpr (Or.inl rfl))
  have hrep := hs.rep i
  rw [hi] at hrep
  obtain ⟨hv, ht, hden⟩ := hrep
  rcases alloc_spec (E := E) hs.inv hid i.isLt hv hinv with
    ⟨l', m₁, hrun, hstep⟩ | ⟨m₁, hrun, ⟨x, hstep⟩, herrno⟩
  · have hk := alloc_keep hs hi hstep
    have hself : Function.update sub i (inner p l' (fun _ => empty)) i =
        inner p l' (fun _ => empty) := Function.update_self ..
    rw [hrun]
    obtain ⟨c', ok, ⟨sub₂, hc', hfill⟩, h2, h3, h4⟩ := fill_below ih (hk.state hs) hself hbe hne
      (fillBlockReady_empty _ _ _)
    rw [Function.update_idem] at h2
    exact ⟨c', ok, Or.inr (Or.inr (Or.inl ⟨p, l', sub₂, hi, hc', hfill⟩)), hk.trans h2, h3, h4⟩
  · have hk := BlockKeep.of_node hs hstep (c := leaf p)
      ⟨hv, ht, hden.relink ..⟩ trivial (by rw [hi])
    have hlog : BlockKeep z E m₁ id a (Function.update sub i (leaf p))
        (m₁.error .allocLevelBlockFailed) (Function.update sub i (leaf p)) :=
      (hk.state hs).keep_trace rfl rfl rfl (Traces.log halloc)
    rw [hrun]
    refine ⟨leaf p, false, Or.inr (Or.inl ⟨p, hi, rfl, rfl⟩), hk.trans hlog, ?_, fun _ => ?_⟩
    · exact ⟨fun h => by simp only at h; omega, fun h => by cases h⟩
    · exact List.mem_append_right _ (List.mem_singleton.mpr rfl)

/-- One round of `ummu_table_fill_node_by_level`. -/
lemma fillSlot_spec {dat : DataInfo} {nb ne : Nat} {middle : Prop} [Decidable middle] (hz : z.Fills dat)
    (hd : d ≤ 3) (ih : ∀ d', d = d' + 1 → FillsByLevel z E dat d') (hinv : TableError.invalidLevelId ∈ E)
    (halloc : TableError.allocLevelBlockFailed ∈ E) (hs : BlockState z m pre id a sub)
    (hbe : nb ≤ ne) (hne : ne < tableGeometry.span d) (hm : middle → sub i = empty)
    (hready : FillReady tableGeometry d (tableGeometry.child d a i) (sub i)
      (tableGeometry.child d a i + nb) (tableGeometry.child d a i + ne)) :
    SlotDone z E AllocFailed m id a sub i
      (FillSlot tableGeometry (newSegInfo dat) d (tableGeometry.child d a i) (sub i)
        (tableGeometry.child d a i + nb) (tableGeometry.child d a i + ne))
      (fillSlot dat d (id / 4) (512 * (id % 4)) (slotRef id i) nb ne middle m) := by
  have hrep := hs.rep i
  have hvalid := cellAt_valid hrep
  have hempty : sub i = empty → SlotDone z E AllocFailed m id a sub i
      (FillSlot tableGeometry (newSegInfo dat) d (tableGeometry.child d a i) (sub i)
        (tableGeometry.child d a i + nb) (tableGeometry.child d a i + ne))
      (0, ummuModifyEntryCnt (id / 4) (512 * (id % 4)) true
        (ummuTableFillNode (slotRef id i) nb ne dat m)) := by
    intro hi
    refine ⟨_, true, ?_, fillNode_keep hz hd hbe hne hs hi, ⟨fun _ => rfl, fun _ => rfl⟩,
      fun h => by cases h⟩
    cases d with
    | zero => exact ⟨hi, rfl, rfl⟩
    | succ d => exact Or.inl ⟨hi, rfl, rfl⟩
  unfold fillSlot
  cases hi : sub i with
  | empty =>
    have hv : (m.node (slotRef id i)).valid ≠ true := by
      rw [Machine.node_slotRef, hvalid.mpr hi]
      exact Bool.false_ne_true
    rw [if_neg hv, if_neg hv, ite_self, ← hi]
    exact hempty hi
  | leaf p =>
    have hmid : ¬middle := fun h => by
      have := hm h
      rw [hi] at this
      cases this
    rw [hi] at hrep
    have hv : (m.node (slotRef id i)).valid = true := hrep.1
    have htype : (m.node (slotRef id i)).type = true := hrep.2.1
    rw [if_neg hmid, if_pos hv, if_pos htype, ← hi]
    cases d with
    | zero =>
      have he : sub i = empty := hready
      rw [hi] at he
      cases he
    | succ d => exact fill_leaf (ih d rfl) hinv halloc hs hi hbe hne
  | @inner d p k sub₁ =>
    have hmid : ¬middle := fun h => by
      have := hm h
      rw [hi] at this
      cases this
    rw [hi] at hrep
    have hv : (m.node (slotRef id i)).valid = true := hrep.1
    have htype : (m.node (slotRef id i)).type ≠ true := by
      rw [Machine.node_slotRef, hrep.2.1]
      exact Bool.false_ne_true
    rw [if_neg hmid, if_pos hv, if_neg htype, ← hi]
    refine (fill_below (ih d rfl) hs hi hbe hne (hready p k sub₁ hi)).imp (fun c' ok h => ?_)
    obtain ⟨sub₂, hc', hfill⟩ := h
    exact Or.inr (Or.inr (Or.inr ⟨p, k, sub₁, sub₂, hi, hc', hfill⟩))

/-- `ummu_table_fill_node_by_level` fills the range in the block. -/
theorem fillByLevel_spec {dat : DataInfo} (hz : z.Fills dat) (hinv : TableError.invalidLevelId ∈ E)
    (halloc : TableError.allocLevelBlockFailed ∈ E) (hd : d ≤ 3) : FillsByLevel z E dat d := by
  have hstep : ∀ d, d ≤ 3 → (∀ d', d = d' + 1 → FillsByLevel z E dat d') →
      FillsByLevel z E dat d := by
    intro d hd ih m pre id a lb ll sub hs hle hlt hready
    obtain ⟨b, hb⟩ := hs.inv.ctx.mapped_of_used (hs.used (mem_foot.mpr (Or.inl rfl)))
    have hll : tableGeometry.InSlot (d + 1) a (a + ll) := ⟨by omega, by omega⟩
    rw [ummuTableFillNodeByLevel]
    simp only [childBlk_eq hs.link, childOff_eq hs.link, hb, ← index_add hd hlt a,
      ← index_add hd (lt_of_le_of_lt hle hlt) a, levelRangeMask_eq hd, and_span_sub_one]
    have hrange := hs.keep_range (E := E)
    suffices hslot : _ from
      (walk_keep (P := AllocFailed) (hrange.state hs)
        (tableGeometry.index_mono (Nat.add_le_add_left hle a)) (Geometry.index_lt hll) hslot).imp
        (fun _ => Exists.imp (fun _ h => ⟨h.1, hrange.trans h.2.1, h.2.2⟩))
    clear hrange
    intro m cur i hs hlo hhi hsame
    have hacc := hs.keep_access (E := E) (j := i) i.isLt b id
    have hclip := Geometry.clipLo_le_clipHi (g := tableGeometry) (d := d) (i := i)
      (Nat.le_add_right a lb) (Nat.add_le_add_left hle a)
    have hpos := tableGeometry.span_pos d
    obtain ⟨hm, hready'⟩ := hready i hlo hhi
    rw [clipLo_eq (Nat.le_add_right a lb), clipHi_eq (Nat.le_add_right a ll),
      Nat.add_sub_cancel_left, Nat.add_sub_cancel_left] at hready' hclip ⊢
    have hmid : (tableGeometry.index d a (a + lb) < i ∧ i < tableGeometry.index d a (a + ll)) →
        cur i = empty := fun h => hsame.trans (hm h)
    rw [← hsame] at hm hready'
    have hlt : (if i.val = tableGeometry.index d a (a + ll) then ll % tableGeometry.span d
        else tableGeometry.span d - 1) < tableGeometry.span d := by
      split
      · exact Nat.mod_lt _ hpos
      · omega
    obtain ⟨c', ok, h1, h2, h3⟩ := fillSlot_spec hz hd ih hinv halloc (hacc.state hs)
      (Nat.le_of_add_le_add_left hclip) hlt hmid hready'
    exact ⟨c', ok, ⟨hm, h1⟩, hacc.trans h2, h3⟩
  induction d with
  | zero => exact hstep 0 hd (fun d' hd' => by omega)
  | succ d ih =>
    refine hstep (d + 1) hd (fun d' hd' => ?_)
    obtain rfl : d' = d := by omega
    exact ih (by omega)


end Fill

end Ummu
