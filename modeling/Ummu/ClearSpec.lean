import Ummu.PullSpec

/-!
# Clearing a range

`ummu_table_clear_node_by_level` follows the clear of the tree, slot by slot and piece by piece.
-/

namespace Ummu

open Lib Machine Cell

section Clear

variable {z : NodeRule} {E : Set TableError} {m m' : Machine} {pre : NodeRef} {id a d : Nat}
  {sub sub' : SegBlock d} {i : Fin tableGeometry.slots}

lemma einval_ne : (-einval : Int) ≠ 0 := by decide

lemma pieceBound_lt {d : Nat} (hd : d ≤ 3) : pieceBound tableGeometry.slots d < maxLoop := by
  interval_cases d <;> decide

/-- A block that keeps a node was not given back. -/
lemma BlockRun.keep (h : BlockRun z E m pre id a sub m' sub') (hne : ∃ i, sub' i ≠ empty) :
    BlockKeep z E m id a sub m' sub' := by
  rcases h with ⟨_, hk⟩ | ⟨he, _⟩
  · exact hk
  · obtain ⟨i, hi⟩ := hne
    exact (hi (he i)).elim

lemma update_ne_empty {c : SegCell d} (hc : c ≠ empty) : ∃ j, Function.update sub i c j ≠ empty :=
  ⟨i, by rwa [Function.update_self]⟩

/-- After a clear of the node, the loop of `ummu_table_clear_head_node` sees a linked block with a
valid node just where the cell is not empty. -/
lemma after_clear (hs : BlockState z m pre id a sub) {c : SegCell d}
    (h : BlockRun z E m pre id a sub m' (Function.update sub i c)) :
    ((m'.node pre).type = false ∧ (m'.node (slotRef id i)).valid = true) ↔ c ≠ empty := by
  constructor
  · rintro ⟨htype, hvalid⟩ rfl
    rcases h with ⟨_, hk⟩ | ⟨_, hg⟩
    · have hrep := hk.rep i
      rw [Function.update_self] at hrep
      exact Bool.false_ne_true (Eq.trans hrep.symm hvalid)
    · rw [hg.node] at htype
      cases htype
  · intro hc
    have hk := h.keep (update_ne_empty hc)
    have hrep := hk.rep i
    rw [Function.update_self] at hrep
    refine ⟨(hk.state hs).type, ?_⟩
    have hv := mt (cellAt_valid hrep).mp hc
    rwa [Bool.not_eq_false] at hv

/-- The `do`-`while` of `ummu_table_clear_head_node` takes piece after piece away. -/
theorem clearHeadLoop_spec {c c' : SegCell d} {e b rest n : Nat} (hd : d ≤ 3)
    (h : Drops e c b c' rest n) :
    ∀ (m : Machine) (sub : SegBlock d) (left curLimit nodeLimit : Nat),
      BlockState z m pre id a sub → sub i = c → n < left →
      (m.ctx.levelNode id i).limit = curLimit → e = tableGeometry.child d a i + nodeLimit →
      ∃ r, (clearHeadLoop (d + 1) pre (slotRef id i) nodeLimit left curLimit m).1 = some r ∧
        rest = tableGeometry.child d a i + r ∧
        BlockRun z E m pre id a sub
          (clearHeadLoop (d + 1) pre (slotRef id i) nodeLimit left curLimit m).2
          (Function.update sub i c') := by
  induction h with
  | @last c c' p hp hdrop hstop =>
    intro m sub left curLimit nodeLimit hs hi hn hcur he
    obtain ⟨left, rfl⟩ : ∃ k, left = k + 1 := ⟨left - 1, by omega⟩
    have hrep := hs.rep i
    rw [hi] at hrep
    have hden := (cellAt_own hrep hp).2
    have hrun := clearNode_spec (E := E) hd hs (hi ▸ hdrop)
    have hafter := after_clear hs hrun
    rw [clearHeadLoop]
    simp only [show left ≠ 0 by omega, if_false]
    refine ⟨curLimit + 1, ?_⟩
    have hrest : p.limit + 1 = tableGeometry.child d a i + (curLimit + 1) := by
      have := hden.limit
      omega
    by_cases hc : c' ≠ empty
    · rw [if_pos (hafter.mpr hc)]
      have hk := hrun.keep (update_ne_empty hc)
      have hrep' := hk.rep i
      rw [Function.update_self] at hrep'
      cases hp' : c'.own with
      | none => cases c' <;> first | exact (hc rfl).elim | cases hp'
      | some p' =>
        have hden' := (cellAt_own hrep' hp').2
        rw [if_neg]
        · exact ⟨rfl, hrest, hrun⟩
        · rintro ⟨h1, h2⟩
          refine hstop p' hp' ⟨?_, (hden'.limit_le he).mp h2⟩
          exact (hden'.base_eq hrest).mp h1.symm
    · rw [if_neg (fun h => hc (hafter.mp h))]
      exact ⟨rfl, hrest, hrun⟩
  | @more c c₁ c' p p' rest n hp hdrop hp' hbase hlimit hdrops ih =>
    intro m sub left curLimit nodeLimit hs hi hn hcur he
    obtain ⟨left, rfl⟩ : ∃ k, left = k + 1 := ⟨left - 1, by omega⟩
    have hrep := hs.rep i
    rw [hi] at hrep
    have hden := (cellAt_own hrep hp).2
    have hrun := clearNode_spec (E := E) hd hs (hi ▸ hdrop)
    have hc₁ := ne_empty_of_own hp'
    have hk := hrun.keep (update_ne_empty hc₁)
    have hrep' := hk.rep i
    rw [Function.update_self] at hrep'
    have hden' := (cellAt_own hrep' hp').2
    have hrest : p.limit + 1 = tableGeometry.child d a i + (curLimit + 1) := by
      have := hden.limit
      omega
    rw [clearHeadLoop]
    simp only [show left ≠ 0 by omega, if_false]
    rw [if_pos ((after_clear hs hrun).mpr hc₁), if_pos]
    · obtain ⟨r, h1, h2, h3⟩ := ih _ _ left _ nodeLimit (hk.state hs) (Function.update_self ..)
        (by omega) rfl he
      rw [Function.update_idem] at h3
      exact ⟨r, h1, h2, hk.trans_run hs h3⟩
    · exact ⟨((hden'.base_eq hrest).mpr hbase).symm, (hden'.limit_le he).mpr hlimit⟩

/-- A head or tail node whose piece starts where the range does: after the loop, the rest of the
range is cleared below it. -/
lemma clearHead_drops {c c₁ : SegCell d} {b e rest n nb ne : Nat}
    (next : NodeRef → Nat → Nat → Machine → Int × Machine) (hd : d ≤ 3)
    (hs : BlockState z m pre id a sub) (hi : sub i = c) (h : Drops e c b c₁ rest n)
    (hn : n < maxLoop) (hb : b = tableGeometry.child d a i + nb)
    (he : e = tableGeometry.child d a i + ne) :
    ∃ r m₁, rest = tableGeometry.child d a i + r ∧
      BlockRun z E m pre id a sub m₁ (Function.update sub i c₁) ∧
      ummuTableClearHeadNode next (d + 1) pre (slotRef id i) nb ne m =
        if (m₁.node pre).type = false ∧ r ≤ ne ∧ (m₁.node (slotRef id i)).valid = true ∧
            (m₁.node (slotRef id i)).type = false then next (slotRef id i) r ne m₁
        else (0, m₁) := by
  obtain ⟨p, hp, hpb⟩ := h.own
  have hrep := hs.rep i
  rw [hi] at hrep
  have hbase := ((cellAt_own hrep hp).2.base_eq hb).mpr hpb
  -- the note of the level in `data_info`
  have hlvl : BlockKeep z E m id a sub { m with lvl := min (levelOf (d + 1)) m.lvl } sub :=
    hs.keep_trace rfl rfl rfl (Traces.of_eq rfl)
  obtain ⟨r, h1, h2, h3⟩ := clearHeadLoop_spec (E := E) (i := i) hd h _ sub maxLoop _ ne
    (hlvl.state hs) hi hn rfl he
  refine ⟨r, _, h2, hlvl.trans_run hs h3, ?_⟩
  unfold ummuTableClearHeadNode
  rw [if_pos (show (m.node (slotRef id i)).base = nb from hbase)]
  generalize hloop : clearHeadLoop (d + 1) pre (slotRef id i) ne maxLoop
    (Machine.node { m with lvl := min (levelOf (d + 1)) m.lvl } (slotRef id i)).limit
    { m with lvl := min (levelOf (d + 1)) m.lvl } = res
  have hres : res.1 = some r := hloop ▸ h1
  obtain ⟨o, m₁⟩ := res
  simp only at hres
  subst hres
  simp only [Machine.node_slotRef] at hloop ⊢
  simp only [hloop]
  rfl

/-- A leaf gives its piece up if it starts where the range does, and is an error otherwise. -/
lemma clearHead_leaf {c c' : SegCell d} {b e nb ne : Nat} {ok : Bool}
    (next : NodeRef → Nat → Nat → Machine → Int × Machine) (hd : d ≤ 3)
    (hs : BlockState z m pre id a sub) (hi : sub i = c) (h : ClearLeaf c b c' ok)
    (hb : b = tableGeometry.child d a i + nb) (he : e = tableGeometry.child d a i + ne)
    (hE : ok = false → TableError.unexpectedFailed ∈ E) :
    ((ummuTableClearHeadNode next (d + 1) pre (slotRef id i) nb ne m).1 = 0 ↔ ok = true) ∧
      BlockRun z E m pre id a sub
        (ummuTableClearHeadNode next (d + 1) pre (slotRef id i) nb ne m).2
        (Function.update sub i c') := by
  rcases h with ⟨p, rfl, rfl, rfl, rfl⟩ | ⟨p, rfl, hne, rfl, rfl⟩
  · have hdrops : Drops e (leaf p : SegCell d) p.base empty (p.limit + 1) 1 :=
      Drops.last rfl Drop.leaf (fun p' hp' => by cases hp')
    obtain ⟨r, m₁, _, hrun, hgo⟩ := clearHead_drops (E := E) next hd hs hi hdrops
      (by decide) hb he
    have hafter := after_clear hs hrun
    rw [hgo, if_neg (fun h => hafter.mp ⟨h.1, h.2.2.1⟩ rfl)]
    exact ⟨⟨fun _ => rfl, fun _ => rfl⟩, hrun⟩
  · have hrep := hs.rep i
    rw [hi] at hrep
    have hbase : ¬(m.node (slotRef id i)).base = nb := fun h => hne ((hrep.2.2.base_eq hb).mp h)
    have hself : Function.update sub i (leaf p) = sub := by
      rw [← hi, Function.update_eq_self]
    unfold ummuTableClearHeadNode
    rw [if_neg hbase, if_neg (by rw [Machine.node_slotRef, hrep.2.1]; simp), hself]
    refine ⟨⟨fun h => absurd h einval_ne, fun h => by cases h⟩, Or.inl ⟨⟨i, by rw [hi]; simp⟩, ?_⟩⟩
    exact hs.keep_trace rfl rfl rfl (Traces.log (hE rfl))

/-- A walk of the code that follows a walk of the tree in which all nodes visited are in use. -/
theorem walk_run {R : Step SegInfo tableGeometry d} {body : Nat → Machine → Int × Machine}
    {b e : Nat} {ok : Bool} (hs : BlockState z m pre id a sub)
    (h : Walk tableGeometry d a R sub b e sub' ok)
    (hne : ∀ i c nb ne c' ok, R i c nb ne c' ok → c ≠ empty)
    (hbody : ∀ (m : Machine) (cur : SegBlock d) (i : Fin tableGeometry.slots) (c' : SegCell d)
      (ok' : Bool), BlockState z m pre id a cur → tableGeometry.index d a b ≤ i →
      i ≤ tableGeometry.index d a e → (ok' = false → ok = false) →
      R i (cur i) (tableGeometry.clipLo d a b i) (tableGeometry.clipHi d a e i) c' ok' →
      ((body i m).1 = 0 ↔ ok' = true) ∧
        BlockRun z E m pre id a cur (body i m).2 (Function.update cur i c')) :
    ((forRange body (tableGeometry.index d a b)
        (tableGeometry.index d a e + 1 - tableGeometry.index d a b) m).1 = 0 ↔ ok = true) ∧
      BlockRun z E m pre id a sub (forRange body (tableGeometry.index d a b)
        (tableGeometry.index d a e + 1 - tableGeometry.index d a b) m).2 sub' := by
  obtain ⟨j, hj1, hj2, hj3, hlt, hj, hout⟩ := h
  -- the induction is on the slots left; the slots before `k` are done
  have hmain : ∀ n k (m : Machine) (cur : SegBlock d), k + n = tableGeometry.index d a e + 1 →
      tableGeometry.index d a b ≤ k → k ≤ j → BlockState z m pre id a cur →
      (∀ x : Fin tableGeometry.slots, x < k → cur x = sub' x) →
      (∀ x : Fin tableGeometry.slots, k ≤ x → cur x = sub x) →
      ((forRange body k n m).1 = 0 ↔ ok = true) ∧
        BlockRun z E m pre id a cur (forRange body k n m).2 sub' := by
    intro n
    induction n with
    | zero => intro k m cur hk _ hkj; omega
    | succ n ih =>
      intro k m cur hk hbk hkj hs hdone htodo
      rw [forRange_succ]
      by_cases hkj' : k = j
      · subst hkj'
        obtain ⟨h1, h2⟩ := hbody m cur j (sub' j) ok hs hbk hj2 (fun h => h)
          (by rw [htodo j (le_refl _)]; exact hj)
        have hupdate : Function.update cur j (sub' j) = sub' := by
          funext x
          by_cases hx : x = j
          · rw [hx, Function.update_self]
          · rw [Function.update_of_ne hx]
            have hx' : x.val ≠ j.val := fun h => hx (Fin.ext h)
            by_cases hxj : x.val < j.val
            · exact hdone x hxj
            · rw [htodo x (by omega)]
              exact (hout x (Or.inr (Fin.lt_def.mpr (by omega)))).symm
        rw [hupdate] at h2
        cases ok with
        | true =>
          obtain rfl : n = 0 := by have := hj3 rfl; omega
          rw [if_neg (not_not.mpr (h1.mpr rfl))]
          exact ⟨⟨fun _ => rfl, fun _ => rfl⟩, h2⟩
        | false =>
          rw [if_pos (fun h => absurd (h1.mp h) Bool.false_ne_true)]
          exact ⟨h1, h2⟩
      · have hkj'' : k < j := by omega
        have hks : k < tableGeometry.slots := lt_trans hkj'' j.isLt
        obtain ⟨h1, h2⟩ := hbody m cur ⟨k, hks⟩ (sub' ⟨k, hks⟩) true hs hbk
          (show k ≤ tableGeometry.index d a e by omega) (fun h => by cases h) (by
            rw [htodo ⟨k, hks⟩ (le_refl _)]
            exact hlt ⟨k, hks⟩ hbk (Fin.lt_def.mpr hkj''))
        -- the next node of the walk is still in use, so the block is kept
        have hks' : k + 1 < tableGeometry.slots := by have := j.isLt; omega
        have hnext : sub ⟨k + 1, hks'⟩ ≠ empty := by
          by_cases hlast : k + 1 = j
          · have hR := hne _ _ _ _ _ _ hj
            rwa [show (⟨k + 1, hks'⟩ : Fin tableGeometry.slots) = j from Fin.ext hlast]
          · exact hne _ _ _ _ _ _ (hlt ⟨k + 1, hks'⟩ (by simp only; omega)
              (Fin.lt_def.mpr (by simp only; omega)))
        have hk₁ := h2.keep ⟨⟨k + 1, hks'⟩, by
          rw [Function.update_of_ne (fun h => by have := congrArg Fin.val h; simp at this),
            htodo _ (by simp)]
          exact hnext⟩
        obtain ⟨h3, h4⟩ := ih (k + 1) _ _ (by omega) (by omega) (by omega) (hk₁.state hs)
          (fun x hx => by
            by_cases hxk : x.val = k
            · rw [show x = ⟨k, hks⟩ from Fin.ext hxk, Function.update_self]
            · rw [Function.update_of_ne (fun h => hxk (congrArg Fin.val h))]
              exact hdone x (by omega))
          (fun x hx => by
            rw [Function.update_of_ne (fun h => by have := congrArg Fin.val h; simp at this; omega)]
            exact htodo x (by omega))
        rw [if_neg (not_not.mpr (h1.mpr rfl))]
        exact ⟨h3, hk₁.trans_run hs h4⟩
  refine hmain _ _ m sub (by omega) (le_refl _) hj1 hs (fun x hx => (hout x (Or.inl hx)).symm)
    (fun _ _ => rfl)

/-- What `ummu_table_clear_node_by_level` does on a block of depth `d`. -/
def ClearsByLevel (z : NodeRule) (E : Set TableError) (pl : Prop) (d : Nat) : Prop :=
  ∀ (m : Machine) (pre : NodeRef) (id a lb ll : Nat) (sub sub' : SegBlock d) (ok : Bool),
    BlockState z m pre id a sub → lb ≤ ll → ll < tableGeometry.span (d + 1) →
    ClearBlock tableGeometry pl d a sub (a + lb) (a + ll) sub' ok →
    (ok = false → TableError.unexpectedFailed ∈ E) →
    ((ummuTableClearNodeByLevel (d + 1) pre lb ll m).1 = 0 ↔ ok = true) ∧
      BlockRun z E m pre id a sub (ummuTableClearNodeByLevel (d + 1) pre lb ll m).2 sub'

/-- The range is cleared below node `i`, which keeps its piece. -/
lemma clear_below {d : Nat} {sub : SegBlock (d + 1)} {pl : Prop} {p : Piece SegInfo} {k nb ne : Nat}
    {sub₁ sub₂ : SegBlock d} {ok : Bool} (ih : ClearsByLevel z E pl d)
    (hs : BlockState z m pre id a sub) (hi : sub i = inner p k sub₁) (hbe : nb ≤ ne)
    (hne : ne < tableGeometry.span (d + 1))
    (h : ClearBlock tableGeometry pl d (tableGeometry.child (d + 1) a i) sub₁
      (tableGeometry.child (d + 1) a i + nb) (tableGeometry.child (d + 1) a i + ne) sub₂ ok)
    (hE : ok = false → TableError.unexpectedFailed ∈ E) :
    ((ummuTableClearNodeByLevel (d + 1) (slotRef id i) nb ne m).1 = 0 ↔ ok = true) ∧
      BlockKeep z E m id a sub (ummuTableClearNodeByLevel (d + 1) (slotRef id i) nb ne m).2
        (Function.update sub i (mkInner p k sub₂)) := by
  obtain ⟨h1, h2⟩ := ih _ _ _ _ _ _ _ _ _ (hs.child hi) hbe hne h hE
  exact ⟨h1, BlockKeep.of_child_run hs hi h2⟩

/-- `ummu_table_clear_head_node` clears the range in its slot. -/
theorem clearHead_spec {pl : Prop} {c' : SegCell d} {nb ne : Nat} {ok : Bool} (hd : d ≤ 3)
    (ih : ∀ d', d = d' + 1 → ClearsByLevel z E pl d') (hs : BlockState z m pre id a sub)
    (hbe : nb ≤ ne) (hne : ne < tableGeometry.span d)
    (h : ClearSlot tableGeometry pl d (tableGeometry.child d a i) (sub i)
      (tableGeometry.child d a i + nb) (tableGeometry.child d a i + ne) c' ok)
    (hE : ok = false → TableError.unexpectedFailed ∈ E) :
    ((ummuTableClearHeadNode (ummuTableClearNodeByLevel d) (d + 1) pre (slotRef id i) nb ne m).1 = 0
        ↔ ok = true) ∧
      BlockRun z E m pre id a sub
        (ummuTableClearHeadNode (ummuTableClearNodeByLevel d) (d + 1) pre (slotRef id i) nb ne m).2
        (Function.update sub i c') := by
  cases d with
  | zero => exact clearHead_leaf _ hd hs rfl h rfl rfl hE
  | succ d =>
    rcases h with h | ⟨_, rest, n, hdrops, hn, hlt, rfl⟩ |
      ⟨_, p, k, sub₁, sub₂, rest, n, hdrops, hn, _, hle, hc, hwalk⟩ |
      ⟨p, k, sub₁, sub₂, hi, hbase, hc, hwalk⟩
    · exact clearHead_leaf _ hd hs rfl h rfl rfl hE
    · -- the range ends with the last piece taken away
      obtain ⟨r, m₁, hrest, hrun, hgo⟩ := clearHead_drops (E := E) (ummuTableClearNodeByLevel (d + 1))
        hd hs rfl hdrops (lt_of_le_of_lt hn (pieceBound_lt hd)) rfl rfl
      rw [hgo, if_neg (fun h => by have := h.2.1; omega)]
      exact ⟨⟨fun _ => rfl, fun _ => rfl⟩, hrun⟩
    · -- another piece came up, and the rest of the range lies below
      obtain ⟨r, m₁, hrest, hrun, hgo⟩ := clearHead_drops (E := E) (ummuTableClearNodeByLevel (d + 1))
        hd hs rfl hdrops (lt_of_le_of_lt hn (pieceBound_lt hd)) rfl rfl
      have hk := hrun.keep (update_ne_empty (fun h => by cases h))
      have hs₁ := hk.state hs
      have hself : Function.update sub i (inner p k sub₁) i = inner p k sub₁ :=
        Function.update_self ..
      have hrep := hs₁.rep i
      rw [hself] at hrep
      subst hrest
      have hcond : (m₁.node pre).type = false ∧ r ≤ ne ∧ (m₁.node (slotRef id i)).valid = true ∧
          (m₁.node (slotRef id i)).type = false := ⟨hs₁.type, by omega, hrep.1, hrep.2.1⟩
      obtain ⟨h1, h2⟩ := clear_below (ih d rfl) hs₁ hself hcond.2.1 hne hwalk hE
      rw [Function.update_idem] at h2
      rw [hgo, if_pos hcond]
      have hmk : mkInner p k sub₂ ≠ empty := mkInner_ne_empty p k sub₂
      exact ⟨h1, hc ▸ Or.inl ⟨update_ne_empty hmk, hk.trans h2⟩⟩
    · -- the node holds an earlier piece of another range
      have hrep := hs.rep i
      rw [hi] at hrep
      obtain ⟨h1, h2⟩ := clear_below (ih d rfl) hs hi hbe hne hwalk hE
      have hother : ¬(m.node (slotRef id i)).base = nb :=
        fun h => hbase ((hrep.2.2.1.base_eq rfl).mp h)
      have htype : (m.node (slotRef id i)).type = false := hrep.2.1
      unfold ummuTableClearHeadNode
      rw [if_neg hother, if_pos htype]
      have hmk : mkInner p k sub₂ ≠ empty := mkInner_ne_empty p k sub₂
      exact ⟨h1, hc ▸ Or.inl ⟨update_ne_empty hmk, h2⟩⟩

/-- One call of `ummu_table_clear_node_by_level`. -/
lemma clearBlock_spec {pl : Prop} (hd : d ≤ 3)
    (ih : ∀ d', d = d' + 1 → ClearsByLevel z E pl d') : ClearsByLevel z E pl d := by
  intro m pre id a lb ll sub sub' ok hs hle hlt h hE
  obtain ⟨b, hb⟩ := hs.inv.ctx.mapped_of_used (hs.used (mem_foot.mpr (Or.inl rfl)))
  rw [ummuTableClearNodeByLevel]
  simp only [childBlk_eq hs.link, childOff_eq hs.link, hb, ← index_add hd hlt a,
    ← index_add hd (lt_of_le_of_lt hle hlt) a, levelRangeMask_eq hd,
    and_span_sub_one, slot_eq_slotRef]
  have hrange := hs.keep_range (E := E)
  refine (walk_run (hrange.state hs) h (fun i c nb ne c' ok hR => hR.2.ne_empty) ?_).imp_right
    (hrange.trans_run hs)
  clear hrange
  intro m cur i c' ok' hs hlo hhi hok hR
  have hacc := hs.keep_access (E := E) (j := i) i.isLt b id
  have hs₁ := hacc.state hs
  have hvalid : ((m.access b (512 * (id % 4) + i)).node (slotRef id i)).valid ≠ false :=
    fun hv => hR.2.ne_empty ((cellAt_valid (hs₁.rep i)).mp hv)
  rw [if_neg hvalid]
  by_cases hm : tableGeometry.index d a (a + lb) < i ∧ i < tableGeometry.index d a (a + ll)
  · rw [if_pos hm]
    obtain ⟨⟨p, hp⟩, rfl⟩ := hR.1 hm
    have hdrop : Drop (cur i) c' := by
      have hclear := hR.2
      rw [hp] at hclear ⊢
      rw [hclear.of_leaf]
      exact Drop.leaf
    exact ⟨⟨fun _ => rfl, fun _ => rfl⟩, hacc.trans_run hs (clearNode_spec hd hs₁ hdrop)⟩
  · rw [if_neg hm]
    have hclip := Geometry.clipLo_le_clipHi (g := tableGeometry) (d := d) (i := i)
      (Nat.le_add_right a lb) (Nat.add_le_add_left hle a)
    have hpos := tableGeometry.span_pos d
    rw [clipLo_eq (Nat.le_add_right a lb), clipHi_eq (Nat.le_add_right a ll),
      Nat.add_sub_cancel_left, Nat.add_sub_cancel_left] at hR hclip
    have hlt : (if i.val = tableGeometry.index d a (a + ll) then ll % tableGeometry.span d
        else tableGeometry.span d - 1) < tableGeometry.span d := by
      split
      · exact Nat.mod_lt _ hpos
      · omega
    obtain ⟨h1, h2⟩ := clearHead_spec hd ih hs₁ (Nat.le_of_add_le_add_left hclip) hlt hR.2
      (fun h => hE (hok h))
    exact ⟨h1, hacc.trans_run hs h2⟩

/-- `ummu_table_clear_node_by_level` clears the range in the block. -/
theorem clearByLevel_spec (pl : Prop) (hd : d ≤ 3) : ClearsByLevel z E pl d := by
  induction d with
  | zero =>
    exact clearBlock_spec hd (fun d' hd' => by omega)
  | succ d ih =>
    exact clearBlock_spec hd (fun d' hd' => by
      obtain rfl : d' = d := by omega
      exact ih (by omega))

end Clear

end Ummu
