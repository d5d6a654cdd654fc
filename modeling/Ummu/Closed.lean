import Ummu.Table

/-!
# What every table operation keeps

A property of the machine that each kind of step keeps is kept by the table operations, from
any state.
-/

namespace Ummu

open Lib Machine

/-- A property that every kind of step of a table operation keeps. -/
structure Closed (P : Machine → Prop) : Prop where
  store : ∀ m r f, P m → P (m.store r f)
  log : ∀ m e, (∀ r, e ≠ .resource r) → P m → P (m.log e)
  count : ∀ m blk idx up, P m → P (stepEntryCnt blk idx up m)
  lvl : ∀ m l, P m → P { m with lvl := l }
  root : ∀ m n, P m → P { m with root := n }
  alloc : ∀ m r blk, P m → P (ummuAllocLevelBlock r blk m).2
  free : ∀ m r, P m → P (ummuFreeLevelBlock r m)

/-- A property that the steps keep when nodes are addressed in blocks that satisfy `B` only, as the
blocks of the table do where the property holds. -/
structure ClosedOn (B : MaptBlock → Prop) (P : Machine → Prop) : Prop where
  block : ∀ m k b, P m → m.ctx.maptBlockArray k = some b → B b
  store : ∀ m r f, P m → P (m.store r f)
  access : ∀ m b off, B b → P m → P (m.access b off)
  log : ∀ m e, (∀ r, e ≠ .resource r) → (∀ pos size, e ≠ .access pos size) → P m → P (m.log e)
  count : ∀ m blk idx up, P m → P (stepEntryCnt blk idx up m)
  lvl : ∀ m l, l ≤ m.lvl → P m → P { m with lvl := l }
  root : ∀ m n, P m → P { m with root := n }
  alloc : ∀ m r blk, P m → P (ummuAllocLevelBlock r blk m).2
  free : ∀ m r, P m → P (ummuFreeLevelBlock r m)

namespace ClosedOn

variable {B : MaptBlock → Prop} {P : Machine → Prop} {m : Machine} {r cur pre : NodeRef} {d : DataInfo}

lemma stores (h : ClosedOn B P) (fs : List (TableNode → TableNode)) (hm : P m) :
    P (m.stores r fs) := by
  induction fs generalizing m with
  | nil => exact hm
  | cons f fs ih => exact ih (h.store m r f hm)

lemma error (h : ClosedOn B P) (e : TableError) (hm : P m) : P (m.error e) :=
  h.log m (.error e) (fun _ he => Event.noConfusion he) (fun _ _ he => Event.noConfusion he) hm

lemma rangeBits (h : ClosedOn B P) (level : Nat) (hm : P m) : P (m.log (.rangeBits level)) :=
  h.log m (.rangeBits level) (fun _ he => Event.noConfusion he) (fun _ _ he => Event.noConfusion he) hm

lemma accesses (h : ClosedOn B P) {b : MaptBlock} (hb : B b) (off n : Nat) (hm : P m) :
    P (accesses b off n m) := by
  unfold Ummu.accesses
  induction List.range n generalizing m with
  | nil => exact hm
  | cons i is ih => exact ih (h.access m b (off + i) hb hm)

/-- A loop keeps what its rounds keep. -/
lemma forRange {body : Nat → Machine → Int × Machine}
    (hbody : ∀ i m, P m → P (body i m).2) (i n : Nat) (hm : P m) :
    P (forRange body i n m).2 :=
  forRange_preserves (R := fun m m' => P m → P m') (fun _ h => h)
    (fun _ _ _ h h' hm => h' (h hm)) hbody i n m hm

lemma swapNextLevelNode (h : ClosedOn B P) (rem : Nat) (hm : P m) :
    P (ummuSwapNextLevelNode rem r m) := by
  induction rem generalizing r m with
  | zero => exact hm
  | succ rem ih =>
    rw [ummuSwapNextLevelNode]
    cases hblk : m.ctx.maptBlockArray (m.childBlk r) with
    | none => exact h.error _ hm
    | some b =>
      have hb := h.block m _ b hm hblk
      simp only
      cases firstIndex _ 0 maxMaptEntryIndex with
      | none => exact h.accesses hb _ _ hm
      | some i =>
        have hstores : ∀ fs, P ((((Ummu.accesses b (m.childOff r) (i + 1) m).log
            (.rangeBits (levelOf (rem + 1) + 1))).stores r fs)) :=
          fun fs => h.stores fs (h.rangeBits _ (h.accesses hb _ _ hm))
        simp only
        split_ifs
        · exact ih (hstores _)
        · exact h.stores _ (h.free _ _ (h.count _ _ _ _ (h.stores _ (hstores _))))
        · exact h.count _ _ _ _ (h.stores _ (hstores _))

lemma tableClearNode (h : ClosedOn B P) (rem : Nat) (hm : P m) :
    P (ummuTableClearNode rem cur pre m) := by
  rw [ummuTableClearNode]
  cases m.ctx.maptBlockArray (m.childBlk pre) with
  | none => exact h.error _ hm
  | some b =>
    have hcleared := h.count _ (m.childBlk pre) (m.childOff pre / maxMaptEntryIndex) false
      (@stores B P m cur h memsetStores hm)
    simp only
    split_ifs
    · exact h.stores _ (h.free _ _ hcleared)
    · exact hcleared
    · exact h.swapNextLevelNode _ hm

lemma tableFillNode (h : ClosedOn B P) (base limit : Nat) (blk off : Nat) (hm : P m) :
    P (ummuModifyEntryCnt blk off true (ummuTableFillNode r base limit d m)) :=
  h.count _ _ _ _ (h.stores _ hm)

lemma tableFillNodeByLevel (h : ClosedOn B P) (rem : Nat) (lvlBase lvlLimit : Nat) (hm : P m) :
    P (ummuTableFillNodeByLevel d rem pre lvlBase lvlLimit m).2 := by
  induction rem generalizing pre lvlBase lvlLimit m with
  | zero => exact h.error _ hm
  | succ rem ih =>
    rw [ummuTableFillNodeByLevel]
    cases hblk : m.ctx.maptBlockArray (m.childBlk pre) with
    | none => exact h.error _ hm
    | some b =>
      have hb := h.block m _ b hm hblk
      apply forRange _ _ _ (h.rangeBits _ hm)
      intro i s hs
      have haccess := h.access s b (m.childOff pre + i) hb hs
      simp only
      generalize s.access b (m.childOff pre + i) = s at haccess ⊢
      generalize (if i = getLevelBlockIndex lvlBase _ then _ else _) = nodeBase
      generalize (if i = getLevelBlockIndex lvlLimit _ then _ else _) = nodeLimit
      have halloc := h.alloc s (.slot (m.childBlk pre) (m.childOff pre + i)) (m.childBlk pre) haccess
      split_ifs
      · exact h.error _ haccess
      · exact h.tableFillNode _ _ _ _ haccess
      · generalize ummuAllocLevelBlock _ _ s = r at halloc ⊢
        obtain ⟨o, s'⟩ := r
        cases o with
        | none => exact h.error _ halloc
        | some r => exact ih _ _ (h.store _ _ _ halloc)
      · exact ih _ _ haccess
      · exact h.tableFillNode _ _ _ _ haccess

lemma clearHeadLoop (h : ClosedOn B P) (rem nodeLimit left curLimit : Nat) (hm : P m) :
    P (clearHeadLoop rem pre cur nodeLimit left curLimit m).2 := by
  induction left generalizing curLimit m with
  | zero => exact h.error _ hm
  | succ left ih =>
    have hclear := @tableClearNode B P m cur pre h rem hm
    rw [Ummu.clearHeadLoop]
    split_ifs
    · exact h.error _ hclear
    · exact ih _ hclear
    · exact hclear
    · exact hclear

lemma tableClearHeadNode (h : ClosedOn B P) {next : NodeRef → Nat → Nat → Machine → Int × Machine}
    (hnext : ∀ r base limit m, P m → P (next r base limit m).2) (rem nodeBase nodeLimit : Nat)
    (hm : P m) : P (ummuTableClearHeadNode next rem pre cur nodeBase nodeLimit m).2 := by
  rw [ummuTableClearHeadNode]
  split_ifs
  · have hlvl := h.lvl m (min (levelOf rem) m.lvl) (Nat.min_le_right _ _) hm
    generalize { m with lvl := min (levelOf rem) m.lvl } = s at hlvl ⊢
    have hloop := @clearHeadLoop B P s cur pre h rem nodeLimit maxLoop (s.node cur).limit hlvl
    simp only
    generalize Ummu.clearHeadLoop rem pre cur nodeLimit maxLoop _ _ = r at hloop ⊢
    obtain ⟨o, s'⟩ := r
    cases o with
    | none => exact hloop
    | some rest =>
      simp only
      split_ifs
      · exact hnext _ _ _ _ hloop
      · exact hloop
  · exact hnext _ _ _ _ hm
  · exact h.error _ hm

lemma tableClearNodeByLevel (h : ClosedOn B P) (rem lvlBase lvlLimit : Nat) (hm : P m) :
    P (ummuTableClearNodeByLevel rem pre lvlBase lvlLimit m).2 := by
  induction rem generalizing pre lvlBase lvlLimit m with
  | zero => exact h.error _ hm
  | succ rem ih =>
    rw [ummuTableClearNodeByLevel]
    cases hblk : m.ctx.maptBlockArray (m.childBlk pre) with
    | none => exact h.error _ hm
    | some b =>
      have hb := h.block m _ b hm hblk
      apply forRange _ _ _ (h.rangeBits _ hm)
      intro i s hs
      have haccess := h.access s b (m.childOff pre + i) hb hs
      simp only
      generalize s.access b (m.childOff pre + i) = s at haccess ⊢
      generalize (if i = getLevelBlockIndex lvlBase _ then _ else _) = nodeBase
      generalize (if i = getLevelBlockIndex lvlLimit _ then _ else _) = nodeLimit
      split_ifs
      · exact h.error _ haccess
      · exact h.tableClearNode _ haccess
      · exact h.tableClearHeadNode (fun r base limit m hm => ih base limit hm) _ _ _ haccess

lemma updateToken (h : ClosedOn B P) (hm : P m) : P (ummuUpdateToken r d m).2 := by
  unfold ummuUpdateToken ummuAddToken ummuRemoveToken
  split
  · split_ifs
    · exact h.stores _ hm
    · exact h.error _ hm
  · split_ifs
    · exact h.stores _ hm
    · exact h.stores _ hm
    · exact h.error _ hm
  · exact h.error _ hm

lemma tableUpdateTokenByLevel (h : ClosedOn B P) (rem lvlBase lvlLimit : Nat) (hm : P m) :
    P (ummuTableUpdateTokenByLevel d rem pre lvlBase lvlLimit m).2 := by
  induction rem generalizing pre lvlBase lvlLimit m with
  | zero => exact h.error _ hm
  | succ rem ih =>
    rw [ummuTableUpdateTokenByLevel]
    cases hblk : m.ctx.maptBlockArray (m.childBlk pre) with
    | none => exact h.error _ hm
    | some b =>
      have hb := h.block m _ b hm hblk
      apply forRange _ _ _ (h.rangeBits _ hm)
      intro i s hs
      have haccess := h.access s b (m.childOff pre + i) hb hs
      simp only
      generalize s.access b (m.childOff pre + i) = s at haccess ⊢
      generalize (if i = getLevelBlockIndex lvlBase _ then _ else _) = nodeBase
      generalize (if i = getLevelBlockIndex lvlLimit _ then _ else _) = nodeLimit
      have htoken := @updateToken B P s (.slot (m.childBlk pre) (m.childOff pre + i)) d h haccess
      split_ifs
      · exact h.error _ haccess
      · exact htoken
      · exact htoken
      · exact ih _ _ htoken
      · exact htoken
      · exact ih _ _ haccess
      · exact h.error _ haccess

/-- A table operation keeps every property that its kinds of steps keep. -/
theorem tableOp (h : ClosedOn B P) (hm : P m) : P (ummuTableOp d m).2 := by
  have hroot := h.root m TableNode.zero hm
  unfold ummuTableOp
  split
  · have hfill := @tableFillNodeByLevel B P _ .root d h (maxLevelIndex + 1) d.dataBase d.dataLimit
      hroot
    simp only
    split_ifs
    · exact h.tableClearNodeByLevel _ _ _ hfill
    · exact hfill
  · exact h.tableUpdateTokenByLevel _ _ _ hroot
  · exact h.tableUpdateTokenByLevel _ _ _ hroot
  · exact h.tableClearNodeByLevel _ _ _ hroot
  · exact h.error _ hroot

end ClosedOn

namespace Closed

variable {P : Machine → Prop} {m : Machine} {d : DataInfo}

lemma closedOn (h : Closed P) : ClosedOn (fun _ => True) P where
  block := fun _ _ _ _ _ => trivial
  store := h.store
  access := fun m b off _ hm => h.log m (.access off b.blkSize) (fun _ he => Event.noConfusion he) hm
  log := fun m e he _ hm => h.log m e he hm
  count := h.count
  lvl := fun m l _ hm => h.lvl m l hm
  root := h.root
  alloc := h.alloc
  free := h.free

theorem tableOp (h : Closed P) (hm : P m) : P (ummuTableOp d m).2 := h.closedOn.tableOp hm

end Closed

end Ummu
