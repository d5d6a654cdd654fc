import Ummu.FillSpec

/-!
# Token updates

`ummu_table_update_token_by_level` changes the tokens of every piece of a segment.
-/

namespace Ummu

open Lib Machine Cell

/-- What a token operation makes of the record of the segment. -/
def tokenRecord (dat : DataInfo) (s : SegInfo) : SegInfo :=
  if dat.op = .removeToken then ummuRemoveTokenval dat.tokenVal s
  else { s with tokenVal1 := dat.tokenVal, tokenCount := BitVec.ofNat 8 ummuMaxTokenNum }

/-- The token operation is one that the checks before it let through for the record. -/
def TokenReady (dat : DataInfo) (s : SegInfo) : Prop :=
  s.tokenCheck = true ∧
    ((dat.op = .addToken ∧ s.tokenCount = 1) ∨
      (dat.op = .removeToken ∧ (s.tokenVal0 = dat.tokenVal ∨ s.tokenVal1 = dat.tokenVal)))

section Update

variable {z : Prop} {E : Set TableError} {m m' : Machine} {pre : NodeRef} {id a d : Nat}
  {sub sub' : SegBlock d} {i : Fin tableGeometry.slots} {dat : DataInfo} {s : SegInfo}

/-- The token fields of a node. -/
def TableNode.setTokens (n : TableNode) (v0 v1 : BitVec 32) (nonce : BitVec 2) : TableNode :=
  { n with tokenVal0 := v0, tokenVal1 := v1, nonce := nonce }

lemma tokenRecord_add (hop : dat.op = .addToken) (s : SegInfo) :
    tokenRecord dat s =
      { s with tokenVal1 := dat.tokenVal, tokenCount := BitVec.ofNat 8 ummuMaxTokenNum } := by
  rw [tokenRecord, hop, if_neg (by decide)]

/-- `ummu_update_token` writes the tokens of the new record into a node with those of the old. -/
lemma updateToken_stores {r : NodeRef} (hready : TokenReady dat s)
    (h : HasAttrs (m.node r) s) (hnonce : (m.node r).nonce.toNat = s.tokenCount.toNat)
    (hv : (m.node r).valid = true) :
    ∃ fs k, ummuUpdateToken r dat m = (0, m.stores r fs) ∧
      applyStores fs (m.node r) = (m.node r).setTokens (tokenRecord dat s).tokenVal0
        (tokenRecord dat s).tokenVal1 k ∧
      k.toNat = (tokenRecord dat s).tokenCount.toNat := by
  obtain ⟨htc, hop⟩ := hready
  obtain ⟨h0, h1⟩ := h.tokens htc
  rcases hop with ⟨hop, hcount⟩ | ⟨hop, hval⟩
  · have hn : (m.node r).nonce = 1 := by
      rw [hcount] at hnonce
      exact BitVec.eq_of_toNat_eq hnonce
    refine ⟨[fun n => { n with tokenVal1 := dat.tokenVal },
      fun n => { n with nonce := BitVec.ofNat 2 ummuMaxTokenNum }], BitVec.ofNat 2 ummuMaxTokenNum,
      ?_, ?_, ?_⟩
    · simp only [ummuUpdateToken, hop, ummuAddToken]
      rw [if_pos ⟨hv, hn⟩]
    · rw [tokenRecord_add hop, ← h0]
      rfl
    · rw [tokenRecord_add hop]
      rfl
  · rw [tokenRecord, if_pos hop, ummuRemoveTokenval]
    by_cases hv0 : s.tokenVal0 = dat.tokenVal
    · refine ⟨[fun n => { n with tokenVal0 := n.tokenVal1 }, fun n => { n with nonce := 1 }], 1,
        ?_, ?_, rfl⟩
      · simp only [ummuUpdateToken, hop, ummuRemoveToken]
        rw [if_pos (h0.trans hv0)]
      · rw [if_pos hv0, ← h1]
        rfl
    · refine ⟨[fun n => { n with tokenVal1 := n.tokenVal0 }, fun n => { n with nonce := 1 }], 1,
        ?_, ?_, rfl⟩
      · simp only [ummuUpdateToken, hop, ummuRemoveToken]
        rw [if_neg (fun h => hv0 (h0.symm.trans h)), if_pos (h1.trans (hval.resolve_left hv0))]
      · rw [if_neg hv0, if_pos (hval.resolve_left hv0), ← h0]
        rfl

/-- A token operation leaves the rest of the record. -/
lemma tokenRecord_rest (dat : DataInfo) (s : SegInfo) :
    (tokenRecord dat s).permission = s.permission ∧ (tokenRecord dat s).eBit = s.eBit ∧
      (tokenRecord dat s).tokenCheck = s.tokenCheck ∧
      (tokenRecord dat s).startAddr = s.startAddr ∧ (tokenRecord dat s).grantSize = s.grantSize := by
  unfold tokenRecord ummuRemoveTokenval
  split_ifs <;> exact ⟨rfl, rfl, rfl, rfl, rfl⟩

lemma denotes_setTokens {n : TableNode} {p : Piece SegInfo} {k : BitVec 2}
    (h : Denotes (.ofRecord z) d a n p) (hk : k.toNat = (tokenRecord dat p.label).tokenCount.toNat) :
    Denotes (.ofRecord z) d a (n.setTokens (tokenRecord dat p.label).tokenVal0
      (tokenRecord dat p.label).tokenVal1 k) (p.relabel (tokenRecord dat)) := by
  obtain ⟨r1, r2, r3, _, _⟩ := tokenRecord_rest dat p.label
  refine ⟨h.base, h.limit, h.base_le, h.limit_lt, ⟨?_, ?_, ?_, fun _ => ⟨rfl, rfl⟩⟩, fun _ => hk⟩
  · exact h.attrs.permission.trans (by rw [Piece.relabel, r1])
  · exact h.attrs.eBit.trans (by rw [Piece.relabel, r2])
  · exact h.attrs.tokenCheck.trans (by rw [Piece.relabel, r3])

/-- `ummu_update_token` on a node with a piece of the segment. -/
lemma updateToken_keep {p : Piece SegInfo} (hready : TokenReady dat p.label)
    (hs : BlockState (.ofRecord z) m pre id a sub) (hp : (sub i).own = some p) :
    (ummuUpdateToken (slotRef id i) dat m).1 = 0 ∧
      BlockKeep (.ofRecord z) E m id a sub (ummuUpdateToken (slotRef id i) dat m).2
        (Function.update sub i ((sub i).relabel (tokenRecord dat))) := by
  have hid : id ∈ m.ctx.used := hs.used (mem_foot.mpr (Or.inl rfl))
  have hrep := hs.rep i
  have hsep := hs.sep.2.2 i
  obtain ⟨hv, hden⟩ := cellAt_own hrep hp
  obtain ⟨fs, k, hrun, hn, hk⟩ := updateToken_stores (r := slotRef id i) hready hden.attrs
    (hden.tokens (Or.inl hready.1)) hv
  rw [Machine.node_slotRef] at hn
  have hstep := stores_step (E := E) hs.inv hid i.isLt fs (by rw [hn]; rfl) (fun _ hf => by
    rw [hn] at hf
    exact absurd (hf.symm.trans hv) Bool.false_ne_true)
  rw [hn] at hstep
  rw [hrun]
  have hden' := denotes_setTokens hden hk
  refine ⟨rfl, BlockKeep.of_node hs hstep ?_ ?_ ?_⟩
  · cases hc : sub i with
    | empty =>
      rw [hc] at hp
      cases hp
    | leaf q =>
      rw [hc] at hp hrep
      obtain rfl := Option.some.inj hp
      exact ⟨hrep.1, hrep.2.1, hden'⟩
    | inner q k' sub₁ =>
      rw [hc] at hp hrep
      obtain rfl := Option.some.inj hp
      exact ⟨hrep.1, hrep.2.1, hden', hrep.2.2.2⟩
  · cases hc : sub i with
    | empty => trivial
    | leaf q => trivial
    | inner q k' sub₁ =>
      rw [hc] at hsep
      exact hsep
  · cases sub i <;> rfl

/-- What `ummu_table_update_token_by_level` does on a block of depth `d`. -/
def UpdatesByLevel (z : Prop) (E : Set TableError) (dat : DataInfo) (s : SegInfo) (d : Nat) :
    Prop :=
  ∀ (m : Machine) (pre : NodeRef) (id a lb ll : Nat) (sub sub' : SegBlock d),
    BlockState (.ofRecord z) m pre id a sub → lb ≤ ll → ll < tableGeometry.span (d + 1) →
    UpdateBlock tableGeometry s (tokenRecord dat) d a sub (a + lb) (a + ll) sub' true →
    (ummuTableUpdateTokenByLevel dat (d + 1) pre lb ll m).1 = 0 ∧
      BlockKeep (.ofRecord z) E m id a sub (ummuTableUpdateTokenByLevel dat (d + 1) pre lb ll m).2 sub'

/-- The tokens are updated below node `i`. -/
lemma update_below {d : Nat} {sub : SegBlock (d + 1)} {p : Piece SegInfo} {k nb ne : Nat}
    {sub₁ sub₂ : SegBlock d} (ih : UpdatesByLevel z E dat s d) (hs : BlockState (.ofRecord z) m pre id a sub)
    (hi : sub i = inner p k sub₁) (hbe : nb ≤ ne) (hne : ne < tableGeometry.span (d + 1))
    (h : UpdateBlock tableGeometry s (tokenRecord dat) d (tableGeometry.child (d + 1) a i) sub₁
      (tableGeometry.child (d + 1) a i + nb) (tableGeometry.child (d + 1) a i + ne) sub₂ true) :
    (ummuTableUpdateTokenByLevel dat (d + 1) (slotRef id i) nb ne m).1 = 0 ∧
      BlockKeep (.ofRecord z) E m id a sub (ummuTableUpdateTokenByLevel dat (d + 1) (slotRef id i) nb ne m).2
        (Function.update sub i (inner p k sub₂)) := by
  obtain ⟨h1, h2⟩ := ih _ _ _ _ _ _ _ _ (hs.child hi) hbe hne h
  exact ⟨h1, BlockKeep.of_child hs hi h2⟩

/-- The round of `ummu_table_update_token_by_level` on a head or tail node. -/
def updateSlot (dat : DataInfo) (rem : Nat) (cur : NodeRef) (nodeBase nodeLimit : Nat)
    (m : Machine) : Int × Machine :=
  let curBase := (m.node cur).base
  let curLimit := (m.node cur).limit
  if curBase = nodeBase ∧ curLimit ≤ nodeLimit then
    let r := ummuUpdateToken cur dat m
    if r.1 ≠ 0 then r
    else if (r.2.node cur).type = false ∧ curLimit < nodeLimit then
      ummuTableUpdateTokenByLevel dat rem cur (curLimit + 1) nodeLimit r.2
    else (0, r.2)
  else if (m.node cur).type = false then
    ummuTableUpdateTokenByLevel dat rem cur nodeBase nodeLimit m
  else (-einval, m.error .unexpectedFailed)

/-- A head or tail node with the first piece of the range. -/
lemma updateSlot_first {r nb ne : Nat} {p : Piece SegInfo} (hready : TokenReady dat p.label)
    (hs : BlockState (.ofRecord z) m pre id a sub) (hp : (sub i).own = some p)
    (hbase : p.base = tableGeometry.child d a i + nb)
    (hlimit : p.limit ≤ tableGeometry.child d a i + ne) :
    ∃ m₁, BlockKeep (.ofRecord z) E m id a sub m₁
        (Function.update sub i ((sub i).relabel (tokenRecord dat))) ∧
      updateSlot dat r (slotRef id i) nb ne m =
        if (m₁.node (slotRef id i)).type = false ∧ (m.ctx.levelNode id i).limit < ne then
          ummuTableUpdateTokenByLevel dat r (slotRef id i) ((m.ctx.levelNode id i).limit + 1) ne m₁
        else (0, m₁) := by
  obtain ⟨h1, h2⟩ := updateToken_keep (E := E) hready hs hp
  obtain ⟨_, hden⟩ := cellAt_own (hs.rep i) hp
  refine ⟨_, h2, ?_⟩
  have hfirst : (m.node (slotRef id i)).base = nb ∧ (m.node (slotRef id i)).limit ≤ ne :=
    ⟨(hden.base_eq rfl).mpr hbase, (hden.limit_le rfl).mpr hlimit⟩
  simp only [updateSlot]
  rw [if_pos hfirst, if_neg (not_not.mpr h1), Machine.node_slotRef m]

theorem updateSlot_spec {c' : SegCell d} {nb ne : Nat} {ok : Bool}
    (ih : ∀ d', d = d' + 1 → UpdatesByLevel z E dat s d') (hready : TokenReady dat s)
    (hs : BlockState (.ofRecord z) m pre id a sub) (hbe : nb ≤ ne) (hne : ne < tableGeometry.span d)
    (h : UpdateSlot tableGeometry s (tokenRecord dat) d (tableGeometry.child d a i) (sub i)
      (tableGeometry.child d a i + nb) (tableGeometry.child d a i + ne) c' ok) :
    (updateSlot dat d (slotRef id i) nb ne m).1 = 0 ∧
      BlockKeep (.ofRecord z) E m id a sub (updateSlot dat d (slotRef id i) nb ne m).2
        (Function.update sub i c') := by
  have hleaf : UpdateLeaf s (tokenRecord dat) (sub i) (tableGeometry.child d a i + nb)
      (tableGeometry.child d a i + ne) c' → (updateSlot dat d (slotRef id i) nb ne m).1 = 0 ∧
      BlockKeep (.ofRecord z) E m id a sub (updateSlot dat d (slotRef id i) nb ne m).2
        (Function.update sub i c') := by
    rintro ⟨p, hi, rfl, hbase, hlimit, rfl⟩
    obtain ⟨m₁, hk, hgo⟩ := updateSlot_first (E := E) (r := d) hready hs
      (show (sub i).own = some p by rw [hi]; rfl) hbase hlimit
    have hrep := hk.rep i
    rw [Function.update_self, hi] at hrep
    have htype : ¬(m₁.node (slotRef id i)).type = false := by
      rw [Machine.node_slotRef, hrep.2.1]
      simp
    rw [hgo, if_neg (fun h => htype h.1)]
    rw [hi] at hk
    exact ⟨rfl, hk⟩
  cases d with
  | zero => exact hleaf h
  | succ d =>
    rcases h with h | ⟨p, k, sub₁, hi, rfl, hbase, hlimit, rfl⟩ |
      ⟨p, k, sub₁, sub₂, hi, rfl, hbase, hlimit, rfl, hwalk⟩ |
      ⟨p, k, sub₁, sub₂, hi, hbase, rfl, hwalk⟩
    · exact hleaf h
    · have hp : (sub i).own = some p := by rw [hi]; rfl
      obtain ⟨m₁, hk, hgo⟩ := updateSlot_first (E := E) (r := d + 1) hready hs hp hbase
        (le_of_eq hlimit)
      have hden := (cellAt_own (hs.rep i) hp).2
      rw [hgo, if_neg (fun h => by have := h.2; have := hden.limit; omega)]
      rw [hi] at hk
      exact ⟨rfl, hk⟩
    · have hp : (sub i).own = some p := by rw [hi]; rfl
      obtain ⟨m₁, hk, hgo⟩ := updateSlot_first (E := E) (r := d + 1) hready hs hp hbase
        (le_of_lt hlimit)
      have hden := (cellAt_own (hs.rep i) hp).2
      have hself : Function.update sub i ((sub i).relabel (tokenRecord dat)) i =
          inner (p.relabel (tokenRecord dat)) k sub₁ := by
        rw [Function.update_self, hi]
        rfl
      have hs₁ := hk.state hs
      have hrep := hs₁.rep i
      rw [hself] at hrep
      have hlt : (m.ctx.levelNode id i).limit < ne := by
        have := hden.limit
        omega
      rw [hden.limit, Nat.add_assoc] at hwalk
      obtain ⟨h1, h2⟩ := update_below (ih d rfl) hs₁ hself hlt hne hwalk
      rw [hgo, if_pos ⟨hrep.2.1, hlt⟩]
      rw [Function.update_idem] at h2
      exact ⟨h1, hk.trans h2⟩
    · have hrep := hs.rep i
      rw [hi] at hrep
      have hother : ¬((m.node (slotRef id i)).base = nb ∧ (m.node (slotRef id i)).limit ≤ ne) :=
        fun h => hbase ((hrep.2.2.1.base_eq rfl).mp h.1)
      have htype : (m.node (slotRef id i)).type = false := hrep.2.1
      simp only [updateSlot]
      rw [if_neg hother, if_pos htype]
      exact update_below (ih d rfl) hs hi hbe hne hwalk

/-- A walk of the code whose rounds all go through and leave no node empty. -/
lemma walk_all {R : Step SegInfo tableGeometry d} {body : Nat → Machine → Int × Machine}
    {b e : Nat} (hs : BlockState (.ofRecord z) m pre id a sub)
    (h : Walk tableGeometry d a R sub b e sub' true)
    (hne : ∀ i c nb ne c' ok, R i c nb ne c' ok → c ≠ empty ∧ c' ≠ empty)
    (hbody : ∀ (m : Machine) (cur : SegBlock d) (i : Fin tableGeometry.slots) (c' : SegCell d),
      BlockState (.ofRecord z) m pre id a cur → tableGeometry.index d a b ≤ i → i ≤ tableGeometry.index d a e →
      R i (cur i) (tableGeometry.clipLo d a b i) (tableGeometry.clipHi d a e i) c' true →
      (body i m).1 = 0 ∧ BlockKeep (.ofRecord z) E m id a cur (body i m).2 (Function.update cur i c')) :
    (forRange body (tableGeometry.index d a b)
        (tableGeometry.index d a e + 1 - tableGeometry.index d a b) m).1 = 0 ∧
      BlockKeep (.ofRecord z) E m id a sub (forRange body (tableGeometry.index d a b)
        (tableGeometry.index d a e + 1 - tableGeometry.index d a b) m).2 sub' := by
  have hlast : ∃ j, sub' j ≠ empty := by
    obtain ⟨j, _, _, _, _, hj, _⟩ := h
    exact ⟨j, (hne _ _ _ _ _ _ hj).2⟩
  obtain ⟨h1, h2⟩ := walk_run (E := E) hs h
    (fun i c nb ne c' ok hR => (hne i c nb ne c' ok hR).1)
    (fun m cur i c' ok' hs hlo hhi hok hR => by
      obtain rfl : ok' = true := by
        cases ok' with
        | true => rfl
        | false => cases hok rfl
      obtain ⟨h1, h2⟩ := hbody m cur i c' hs hlo hhi hR
      exact ⟨⟨fun _ => rfl, fun _ => h1⟩,
        Or.inl ⟨update_ne_empty (hne _ _ _ _ _ _ hR).2, h2⟩⟩)
  exact ⟨h1.mpr rfl, h2.keep hlast⟩

/-- `ummu_table_update_token_by_level` updates the tokens of the segment in the block. -/
theorem updateByLevel_spec (hready : TokenReady dat s) (hd : d ≤ 3) :
    UpdatesByLevel z E dat s d := by
  have hstep : ∀ d, d ≤ 3 → (∀ d', d = d' + 1 → UpdatesByLevel z E dat s d') →
      UpdatesByLevel z E dat s d := by
    intro d hd ih m pre id a lb ll sub sub' hs hle hlt h
    obtain ⟨b, hb⟩ := hs.inv.ctx.mapped_of_used (hs.used (mem_foot.mpr (Or.inl rfl)))
    rw [ummuTableUpdateTokenByLevel]
    simp only [childBlk_eq hs.link, childOff_eq hs.link, hb, ← index_add hd hlt a,
      ← index_add hd (lt_of_le_of_lt hle hlt) a, levelRangeMask_eq hd, and_span_sub_one,
      slot_eq_slotRef]
    have hrange := hs.keep_range (E := E)
    refine (walk_all (hrange.state hs) h (fun i c nb ne c' ok hR => hR.2.ne_empty) ?_).imp_right
      hrange.trans
    clear hrange
    intro m cur i c' hs hlo hhi hR
    have hacc := hs.keep_access (E := E) (j := i) i.isLt b id
    have hs₁ := hacc.state hs
    have hvalid : ((m.access b (512 * (id % 4) + i)).node (slotRef id i)).valid ≠ false :=
      fun hv => hR.2.ne_empty.1 ((cellAt_valid (hs₁.rep i)).mp hv)
    rw [if_neg hvalid]
    by_cases hm : tableGeometry.index d a (a + lb) < i ∧ i < tableGeometry.index d a (a + ll)
    · obtain ⟨p, hp⟩ := hR.1 hm
      have hupdate := hR.2
      rw [hp] at hupdate
      obtain ⟨q, hq, rfl, _, _, rfl⟩ := hupdate.of_leaf
      obtain ⟨h1, h2⟩ := updateToken_keep (E := E) (i := i) hready hs₁
        (show (cur i).own = some q by rw [hp, hq]; rfl)
      rw [hp, hq] at h2
      rw [if_pos hm]
      exact ⟨h1, hacc.trans h2⟩
    · have hclip := Geometry.clipLo_le_clipHi (g := tableGeometry) (d := d) (i := i)
        (Nat.le_add_right a lb) (Nat.add_le_add_left hle a)
      have hpos := tableGeometry.span_pos d
      rw [clipLo_eq (Nat.le_add_right a lb), clipHi_eq (Nat.le_add_right a ll),
        Nat.add_sub_cancel_left, Nat.add_sub_cancel_left] at hR hclip
      have hlt : (if i.val = tableGeometry.index d a (a + ll) then ll % tableGeometry.span d
          else tableGeometry.span d - 1) < tableGeometry.span d := by
        split
        · exact Nat.mod_lt _ hpos
        · omega
      obtain ⟨h1, h2⟩ := updateSlot_spec ih hready hs₁ (Nat.le_of_add_le_add_left hclip) hlt hR.2
      rw [if_neg hm]
      exact ⟨h1, hacc.trans h2⟩
  induction d with
  | zero => exact hstep 0 hd (fun d' hd' => by omega)
  | succ d ih =>
    refine hstep (d + 1) hd (fun d' hd' => ?_)
    obtain rfl : d' = d := by omega
    exact ih (by omega)

end Update

end Ummu
