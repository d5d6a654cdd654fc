import Ummu.Lib.Radix

/-!
# Taking a piece away

The piece of an inner node is replaced by the piece of its first child, which is taken away below
in the same manner. `Drops` repeats this while the pieces that come up continue the range that
is being taken away.
-/

namespace Ummu.Lib

open Cell

variable {α : Type}

/-- The piece of the inner node is replaced by that of the first child in use. -/
inductive Pull {F : Nat} : {d : Nat} → Cell α F d → Cell α F d → Prop where
  | leaf {d : Nat} {p p' : Piece α} {id : Nat} {sub : Block α F d} {i : Fin F}
      (hlow : ∀ j, j < i → sub j = empty) (hi : sub i = leaf p') :
      Pull (inner p id sub) (mkInner p' id (Function.update sub i empty))
  | inner {d : Nat} {p p' : Piece α} {id id' : Nat} {sub : Block α F (d + 1)}
      {sub' : Block α F d} {i : Fin F} {c' : Cell α F (d + 1)}
      (hlow : ∀ j, j < i → sub j = empty) (hi : sub i = inner p' id' sub')
      (h : Pull (sub i) c') :
      Pull (inner p id sub) (inner p' id (Function.update sub i c'))

/-- The piece of the node is taken away. -/
inductive Drop {F d : Nat} : Cell α F d → Cell α F d → Prop where
  | leaf {p : Piece α} : Drop (leaf p) empty
  | pull {c c' : Cell α F d} (h : Pull c c') : Drop c c'

/-- `Drops e c b c' rest n`: from the piece that starts at `b` on, `n` pieces are taken away from
`c`, each continuing the one before and ending by `e`; what is left of the range starts at
`rest`. -/
inductive Drops {F d : Nat} (e : Nat) :
    Cell α F d → Nat → Cell α F d → Nat → Nat → Prop where
  | last {c c' : Cell α F d} {p : Piece α} (hp : c.own = some p) (h : Drop c c')
      (hstop : ∀ p', c'.own = some p' → ¬(p'.base = p.limit + 1 ∧ p'.limit ≤ e)) :
      Drops e c p.base c' (p.limit + 1) 1
  | more {c c₁ c' : Cell α F d} {p p' : Piece α} {rest n : Nat} (hp : c.own = some p)
      (h : Drop c c₁) (hp' : c₁.own = some p') (hbase : p'.base = p.limit + 1)
      (hlimit : p'.limit ≤ e) (hrest : Drops e c₁ p'.base c' rest n) :
      Drops e c p.base c' rest (n + 1)

lemma Drops.own {F d e b rest n : Nat} {c c' : Cell α F d} (h : Drops e c b c' rest n) :
    ∃ p, c.own = some p ∧ p.base = b := by
  cases h with
  | last hp _ _ => exact ⟨_, hp, rfl⟩
  | more hp _ _ _ _ _ => exact ⟨_, hp, rfl⟩

/-- Nothing is left of a leaf whose piece is taken away. -/
lemma Drops.of_leaf {F d e b rest n : Nat} {p : Piece α} {c' : Cell α F d}
    (h : Drops e (leaf p) b c' rest n) : c' = empty := by
  have hdrop : ∀ c₁ : Cell α F d, Drop (leaf p) c₁ → c₁ = empty := by
    intro c₁ h
    cases h with
    | leaf => rfl
    | pull h => cases h
  cases h with
  | last _ h _ => exact hdrop _ h
  | more _ h hp' _ _ _ =>
    rw [hdrop _ h] at hp'
    cases hp'

/-- The number of pieces with label `s`. -/
def count [DecidableEq α] (s : α) {F : Nat} : {d : Nat} → Cell α F d → Nat
  | _, .empty => 0
  | _, .leaf p => if p.label = s then 1 else 0
  | _, .inner p _ sub => (if p.label = s then 1 else 0) + ∑ i, count s (sub i)

lemma exists_first {F d : Nat} {sub : Block α F d} (h : ∃ i, sub i ≠ empty) :
    ∃ i, sub i ≠ empty ∧ ∀ j, j < i → sub j = empty := by
  obtain ⟨i, hi⟩ := h
  obtain ⟨m, hm, hmin⟩ := (@wellFounded_lt (Fin F) _ _).has_min {i | sub i ≠ empty} ⟨i, hi⟩
  exact ⟨m, hm, fun j hj => by_contra (fun hne => hmin j hne hj)⟩

section Count

variable [DecidableEq α] {F d : Nat} {s : α}

lemma count_mkInner {p : Piece α} {id : Nat} {sub : Block α F d} :
    count s (mkInner p id sub) = (if p.label = s then 1 else 0) + ∑ i, count s (sub i) := by
  by_cases h : ∃ i, sub i ≠ empty
  · rw [mkInner_of_ne h, count]
  · have h0 : ∀ i, sub i = empty := fun i => by_contra (fun hi => h ⟨i, hi⟩)
    rw [mkInner_of_empty h0]
    simp [h0, count]

lemma sum_count_update (s : α) (sub : Block α F d) (i : Fin F) (c : Cell α F d) :
    (∑ j, count s (Function.update sub i c j)) + count s (sub i) =
      (∑ j, count s (sub j)) + count s c := by
  rw [Fintype.sum_eq_add_sum_compl i, Fintype.sum_eq_add_sum_compl i (fun j => count s (sub j)),
    Function.update_self]
  have hrest : ∑ j ∈ {i}ᶜ, count s (Function.update sub i c j) = ∑ j ∈ {i}ᶜ, count s (sub j) := by
    apply Finset.sum_congr rfl
    intro j hj
    rw [Function.update_of_ne (by simpa using hj)]
  omega

end Count

section Pieces

variable {F d : Nat}

/-- The pieces of the node and of all below it. -/
def Cell.pieces {F : Nat} : {d : Nat} → Cell α F d → Multiset (Piece α)
  | _, .empty => 0
  | _, .leaf p => {p}
  | _, .inner p _ sub => p ::ₘ ∑ i, (sub i).pieces

lemma pieces_mkInner (p : Piece α) (id : Nat) (sub : Block α F d) :
    (mkInner p id sub).pieces = p ::ₘ ∑ i, (sub i).pieces := by
  by_cases h : ∃ i, sub i ≠ empty
  · rw [mkInner_of_ne h, pieces]
  · have h0 : ∀ i, sub i = empty := fun i => by_contra (fun hi => h ⟨i, hi⟩)
    rw [mkInner_of_empty h0]
    simp [h0, pieces]

lemma sum_pieces_update (sub : Block α F d) (i : Fin F) (c : Cell α F d) :
    (∑ j, (Function.update sub i c j).pieces) + (sub i).pieces =
      (∑ j, (sub j).pieces) + c.pieces := by
  rw [Fintype.sum_eq_add_sum_compl i, Fintype.sum_eq_add_sum_compl i (fun j => (sub j).pieces),
    Function.update_self]
  have hrest : ∑ j ∈ {i}ᶜ, (Function.update sub i c j).pieces = ∑ j ∈ {i}ᶜ, (sub j).pieces := by
    apply Finset.sum_congr rfl
    intro j hj
    rw [Function.update_of_ne (by simpa using hj)]
  rw [hrest]
  abel

/-- Exactly the piece of the node itself goes. -/
theorem Pull.pieces {c c' : Cell α F d} {p : Piece α} (h : Pull c c') (hp : c.own = some p) :
    p ::ₘ c'.pieces = c.pieces := by
  induction h generalizing p with
  | @leaf d p₀ p' id sub i hlow hi =>
    obtain rfl := Option.some.inj hp
    have hsum := sum_pieces_update sub i empty
    rw [hi, Cell.pieces, Cell.pieces, add_zero] at hsum
    rw [pieces_mkInner, Cell.pieces, ← hsum, ← Multiset.singleton_add p', add_comm]
  | @inner d p₀ p' id id' sub sub' i c' hlow hi hpull ih =>
    obtain rfl := Option.some.inj hp
    have hchild := ih (by rw [hi]; rfl)
    have hsum := sum_pieces_update sub i c'
    rw [← hchild, ← Multiset.singleton_add p', ← add_assoc] at hsum
    have hsum' := add_right_cancel hsum
    rw [Cell.pieces, Cell.pieces, ← hsum', ← Multiset.singleton_add p']
    exact congrArg (p₀ ::ₘ ·) (add_comm _ _)

lemma Pull.own {c c' : Cell α F d} (h : Pull c c') : ∃ p, c'.own = some p := by
  cases h with
  | leaf hlow hi => exact ⟨_, own_mkInner _ _ _⟩
  | inner hlow hi h => exact ⟨_, rfl⟩

lemma Pull.inhabited {c c' : Cell α F d} (h : Pull c c') (hc : c.Inhabited) : c'.Inhabited := by
  induction h with
  | @leaf d p p' id sub i hlow hi =>
    have hsub : ∀ j, (Function.update sub i empty j).Inhabited := by
      intro j
      by_cases hj : j = i
      · rw [hj, Function.update_self]
        trivial
      · rw [Function.update_of_ne hj]
        exact hc.2 j
    by_cases hne : ∃ j, Function.update sub i empty j ≠ empty
    · rw [mkInner_of_ne hne]
      exact ⟨hne, hsub⟩
    · rw [mkInner_of_empty (fun j => by_contra (fun hj => hne ⟨j, hj⟩))]
      trivial
  | @inner d p p' id id' sub sub' i c' hlow hi hpull ih =>
    obtain ⟨q, hq⟩ := hpull.own
    refine ⟨⟨i, ?_⟩, fun j => ?_⟩
    · rw [Function.update_self]
      exact ne_empty_of_own hq
    · by_cases hj : j = i
      · rw [hj, Function.update_self]
        exact ih (hc.2 i)
      · rw [Function.update_of_ne hj]
        exact hc.2 j

/-- An inner node whose child blocks are in use can be pulled. -/
theorem exists_pull {p : Piece α} {id : Nat} {sub : Block α F d}
    (h : (inner p id sub : Cell α F (d + 1)).Inhabited) : ∃ c', Pull (inner p id sub) c' := by
  induction d generalizing p id with
  | zero =>
    obtain ⟨i, hi, hlow⟩ := exists_first h.1
    cases hc : sub i with
    | empty => exact (hi hc).elim
    | leaf q => exact ⟨_, .leaf hlow hc⟩
  | succ d ih =>
    obtain ⟨i, hi, hlow⟩ := exists_first h.1
    cases hc : sub i with
    | empty => exact (hi hc).elim
    | leaf q => exact ⟨_, .leaf hlow hc⟩
    | inner q id' sub' =>
      obtain ⟨c', hpull⟩ := ih (hc ▸ h.2 i)
      exact ⟨_, .inner hlow hc (hc.symm ▸ hpull)⟩

end Pieces

section Rep

variable {g : Geometry} {d a : Nat} {U : Nat → Option α} {p : Piece α}

lemma rep_mkInner {id : Nat} {sub : Block α g.slots d} (hf : HoldsFirst g (d + 1) a U p)
    (hmix : (∃ i, sub i ≠ empty) → ¬∃ s, ∀ x, g.InSlot (d + 1) a x → U x = some s)
    (hsub : BlockRep g d a sub (erase U p)) : Rep g (mkInner p id sub) a U := by
  by_cases h : ∃ i, sub i ≠ empty
  · rw [mkInner_of_ne h]
    exact ⟨hf, hmix h, h, hsub⟩
  · have h0 : ∀ i, sub i = empty := fun i => by_contra (fun hi => h ⟨i, hi⟩)
    rw [mkInner_of_empty h0]
    refine ⟨hf.pieceIn, fun x hx => ?_⟩
    by_cases hm : p.Mem x
    · rw [if_pos hm]
      exact hf.owned x hm
    · rw [if_neg hm, ← erase_not_mem (U := U) hm]
      have hi := hsub ⟨_, Geometry.index_lt hx⟩
      rw [h0] at hi
      exact hi x hx.child_index

lemma rep_erase_leaf (hc : Rep g (leaf p : Cell α g.slots d) a U) :
    Rep g (empty : Cell α g.slots d) a (erase U p) := by
  intro x hx
  by_cases hm : p.Mem x
  · exact erase_mem hm
  · rw [erase_not_mem hm, hc.2 x hx]
    exact if_neg hm

/-- A block in which child `i` has given up piece `q` of its slot. -/
lemma blockRep_update {sub : Block α g.slots d} {i : Fin g.slots} {c : Cell α g.slots d}
    {q : Piece α} (hsub : BlockRep g d a sub U) (hq : PieceIn g d (g.child d a i) q)
    (hc : Rep g c (g.child d a i) (erase U q)) :
    BlockRep g d a (Function.update sub i c) (erase U q) := by
  intro j
  by_cases hj : j = i
  · subst hj
    rwa [Function.update_self]
  · rw [Function.update_of_ne hj]
    refine rep_congr (fun x hx => ?_) (hsub j)
    rw [erase_not_mem]
    intro hm
    have h1 := (Geometry.inSlot_child_iff.mp (hq.inSlot hm)).2
    have h2 := (Geometry.inSlot_child_iff.mp hx).2
    exact hj (Fin.ext (h2.symm.trans h1))

/-- The first piece of the first child in use is the first of its label in the whole slot. -/
lemma holdsFirst_of_first_child {sub : Block α g.slots d} {i : Fin g.slots}
    (hsub : BlockRep g d a sub U) (hlow : ∀ j, j < i → sub j = empty)
    (hp : HoldsFirst g d (g.child d a i) U p) : HoldsFirst g (d + 1) a U p := by
  refine ⟨hp.pieceIn.of_child i.isLt, hp.owned, fun x hx hlt => ?_⟩
  have hxi := Geometry.index_lt hx
  have hle : g.index d a x ≤ i := by
    have h1 := g.index_mono (d := d) (a := a) (le_of_lt hlt)
    rwa [(Geometry.inSlot_child_iff.mp (hp.pieceIn.inSlot hp.pieceIn.mem_base)).2] at h1
  by_cases he : g.index d a x = i
  · have h2 := hx.child_index
    rw [he] at h2
    exact hp.first x h2 hlt
  · have h3 := hsub ⟨_, hxi⟩
    rw [hlow ⟨_, hxi⟩ (Fin.lt_def.mpr (by simp only; omega))] at h3
    rw [h3 x hx.child_index]
    simp

/-- An inner node can always give up its piece: exactly that piece is gone afterwards. -/
theorem pull_exists [DecidableEq α] {c : Cell α g.slots d} (hc : Rep g c a U)
    (hin : ∀ q, c ≠ leaf q) (hp : c.own = some p) :
    ∃ c', Pull c c' ∧ Rep g c' a (erase U p) ∧ (∃ q, c'.own = some q) ∧
      ∀ s, count s c' + (if p.label = s then 1 else 0) = count s c := by
  induction c generalizing a U p with
  | empty => cases hp
  | leaf q => exact (hin q rfl).elim
  | @inner d q id sub ih =>
    obtain rfl := Option.some.inj hp
    obtain ⟨hf, _, hne, hsub⟩ := hc
    obtain ⟨i, hi, hlow⟩ := exists_first hne
    have hmix : ¬∃ s, ∀ x, g.InSlot (d + 1) a x → erase U q x = some s := by
      rintro ⟨s, hs⟩
      have h1 := hs q.base (hf.pieceIn.inSlot hf.pieceIn.mem_base)
      rw [erase_mem hf.pieceIn.mem_base] at h1
      cases h1
    cases hci : sub i with
    | empty => exact (hi hci).elim
    | leaf p' =>
      have hfi : HoldsFirst g d (g.child d a i) (erase U q) p' :=
        rep_own (hsub i) (by rw [hci]; rfl)
      refine ⟨_, Pull.leaf hlow hci, ?_, ⟨p', own_mkInner _ _ _⟩, fun s => ?_⟩
      · refine rep_mkInner (holdsFirst_of_first_child hsub hlow hfi) (fun _ => hmix) ?_
        refine blockRep_update hsub hfi.pieceIn (rep_erase_leaf ?_)
        rw [← hci]
        exact hsub i
      · rw [count_mkInner, count]
        have h1 := sum_count_update s sub i empty
        rw [hci] at h1
        simp only [count] at h1
        omega
    | inner p' id' sub' =>
      have hfi : HoldsFirst g _ (g.child _ a i) (erase U q) p' :=
        rep_own (hsub i) (by rw [hci]; rfl)
      obtain ⟨c', h1, h2, ⟨q', hq'⟩, h3⟩ := ih i (hsub i)
        (fun q h => by rw [hci] at h; cases h) (by rw [hci]; rfl)
      refine ⟨_, Pull.inner hlow hci h1, ?_, ⟨p', rfl⟩, fun s => ?_⟩
      · refine ⟨holdsFirst_of_first_child hsub hlow hfi, hmix, ⟨i, ?_⟩,
          blockRep_update hsub hfi.pieceIn h2⟩
        rw [Function.update_self]
        intro h
        rw [h] at hq'
        cases hq'
      · rw [count, count]
        have h4 := sum_count_update s sub i c'
        have h5 := h3 s
        omega

lemma drop_exists [DecidableEq α] {c : Cell α g.slots d} (hc : Rep g c a U)
    (hp : c.own = some p) :
    ∃ c', Drop c c' ∧ Rep g c' a (erase U p) ∧
      ∀ s, count s c' + (if p.label = s then 1 else 0) = count s c := by
  cases c with
  | empty => cases hp
  | leaf q =>
    obtain rfl := Option.some.inj hp
    exact ⟨empty, Drop.leaf, rep_erase_leaf hc, fun s => by simp only [count, Nat.zero_add]⟩
  | inner q id sub =>
    obtain ⟨c', h1, h2, _, h3⟩ := pull_exists hc (fun _ h => by cases h) hp
    exact ⟨c', Drop.pull h1, h2, h3⟩

/-- How many pieces of one label can hang in a slot: besides one piece a child, only the children
at the two ends of its range are split further. -/
def pieceBound (F : Nat) : Nat → Nat
  | 0 => 1
  | d + 1 => F + 1 + 2 * pieceBound F d

lemma one_le_pieceBound (F d : Nat) : 1 ≤ pieceBound F d := by
  cases d with
  | zero => exact le_refl _
  | succ d => rw [pieceBound]; omega

lemma count_eq_zero [DecidableEq α] {c : Cell α g.slots d} {s : α} (hc : Rep g c a U)
    (hs : ∀ x, g.InSlot d a x → U x ≠ some s) : count s c = 0 := by
  induction c generalizing a U with
  | empty => rfl
  | leaf p =>
    have hf := rep_own hc rfl
    rw [count, if_neg]
    rintro rfl
    exact hs _ (hf.pieceIn.inSlot hf.pieceIn.mem_base) (hf.owned _ hf.pieceIn.mem_base)
  | inner p id sub ih =>
    have hf := hc.1
    have hne : p.label ≠ s := by
      rintro rfl
      exact hs _ (hf.pieceIn.inSlot hf.pieceIn.mem_base) (hf.owned _ hf.pieceIn.mem_base)
    rw [count, if_neg hne, Nat.zero_add]
    refine Finset.sum_eq_zero (fun i _ => ih i (hc.2.2.2 i) (fun x hx h => ?_))
    exact hs x (Geometry.InSlot.of_child i.isLt hx) (erase_some h).2

/-- The owners in a slot, once the first piece `p` of a label is erased, still have a range of
that label that ends where it did. -/
lemma range_erase {s : α} {b e : Nat} (hf : HoldsFirst g d a U p)
    (hs : ∀ x, g.InSlot d a x → (U x = some s ↔ b ≤ x ∧ x ≤ e)) :
    ∃ b', ∀ x, g.InSlot d a x → (erase U p x = some s ↔ b' ≤ x ∧ x ≤ e) := by
  by_cases hps : p.label = s
  · refine ⟨p.limit + 1, fun x hx => ?_⟩
    have hb := (hs p.base (hf.pieceIn.inSlot hf.pieceIn.mem_base)).mp
      (hps ▸ hf.owned _ hf.pieceIn.mem_base)
    constructor
    · intro h
      obtain ⟨h1, h2⟩ := erase_some h
      have h3 := (hs x hx).mp h2
      have h4 : p.base ≤ x := by
        by_contra hlt
        exact hf.first x hx (not_le.mp hlt) (hps ▸ h2)
      refine ⟨?_, h3.2⟩
      by_contra h5
      exact h1 ⟨h4, by omega⟩
    · rintro ⟨h1, h2⟩
      have hb' := hf.pieceIn.base_le
      rw [erase_not_mem (fun hm => absurd hm.2 (by omega))]
      exact (hs x hx).mpr ⟨by omega, h2⟩
  · refine ⟨b, fun x hx => ?_⟩
    rw [← hs x hx]
    constructor
    · exact fun h => (erase_some h).2
    · intro h
      rw [erase_not_mem]
      · exact h
      · intro hm
        rw [hf.owned x hm] at h
        exact hps (Option.some.inj h)

/-- The bound for a label whose addresses in the slot are an interval. -/
theorem count_le [DecidableEq α] {c : Cell α g.slots d} {s : α} (hc : Rep g c a U)
    (hs : ∃ b e, ∀ x, g.InSlot d a x → (U x = some s ↔ b ≤ x ∧ x ≤ e)) :
    count s c ≤ pieceBound g.slots d := by
  induction c generalizing a U with
  | empty => exact Nat.zero_le _
  | leaf p =>
    have := one_le_pieceBound g.slots
    rw [count]
    split
    · exact this _
    · exact Nat.zero_le _
  | @inner d p id sub ih =>
    obtain ⟨b, e, hbe⟩ := hs
    obtain ⟨hf, _, _, hsub⟩ := hc
    obtain ⟨b', hb'⟩ := range_erase hf hbe
    have hchild : ∀ i : Fin g.slots, count s (sub i) ≤
        1 + (if i.val = g.index d a b' then pieceBound g.slots d else 0) +
          (if i.val = g.index d a e then pieceBound g.slots d else 0) := by
      intro i
      have hin : ∀ x, g.InSlot d (g.child d a i) x →
          (erase U p x = some s ↔ b' ≤ x ∧ x ≤ e) :=
        fun x hx => hb' x (Geometry.InSlot.of_child i.isLt hx)
      have hB := ih i (hsub i) ⟨b', e, hin⟩
      by_cases hall : ∀ x, g.InSlot d (g.child d a i) x → erase U p x = some s
      · obtain ⟨q, hq, hqs⟩ := rep_leaf_of_whole (hsub i) hall
        rw [hq, count, if_pos hqs]
        omega
      · by_cases hsome : ∃ x, g.InSlot d (g.child d a i) x ∧ erase U p x = some s
        · obtain ⟨x, hx, hxs⟩ := hsome
          rw [hin x hx] at hxs
          push Not at hall
          obtain ⟨y, hy, hys⟩ := hall
          have hys' := fun h => hys ((hin y hy).mpr h)
          -- the end of the range between `x` and `y` lies in the slot
          by_cases hyb : y < b'
          · have hmem : g.InSlot d (g.child d a i) b' :=
              ⟨by have := hy.1; omega, by have := hx.2; omega⟩
            rw [if_pos (Geometry.inSlot_child_iff.mp hmem).2.symm]
            omega
          · have hye : e < y := by
              by_contra h
              exact hys' ⟨by omega, by omega⟩
            have hmem : g.InSlot d (g.child d a i) e :=
              ⟨by have := hx.1; omega, by have := hy.2; omega⟩
            rw [if_pos (Geometry.inSlot_child_iff.mp hmem).2.symm]
            omega
        · push Not at hsome
          rw [count_eq_zero (hsub i) hsome]
          exact Nat.zero_le _
    have hpoint : ∀ k : Nat, ∑ i : Fin g.slots,
        (if i.val = k then pieceBound g.slots d else 0) ≤ pieceBound g.slots d := by
      intro k
      by_cases hk : k < g.slots
      · have h1 : ∀ i : Fin g.slots, (i.val = k) = (i = ⟨k, hk⟩) :=
          fun i => propext ⟨fun h => Fin.ext h, fun h => by rw [h]⟩
        simp only [h1, Finset.sum_ite_eq', Finset.mem_univ, if_true]
        exact le_refl _
      · rw [Finset.sum_eq_zero]
        · exact Nat.zero_le _
        · intro i _
          have := i.isLt
          exact if_neg (by omega)
    have hsum := Finset.sum_le_sum (fun i (_ : i ∈ Finset.univ) => hchild i)
    simp only [Finset.sum_add_distrib] at hsum
    have h1 := hpoint (g.index d a b')
    have h2 := hpoint (g.index d a e)
    have hone : ∑ _i : Fin g.slots, 1 = g.slots := by simp
    rw [count, pieceBound]
    split <;> omega

/-- `U` without the owners of `[b, r)`. -/
def cut (U : Nat → Option α) (b r : Nat) : Nat → Option α :=
  fun x => if b ≤ x ∧ x < r then none else U x

lemma erase_eq_cut : erase U p = cut U p.base (p.limit + 1) := by
  funext x
  unfold cut
  by_cases hm : p.Mem x
  · rw [erase_mem hm, if_pos ⟨hm.1, Nat.lt_succ_of_le hm.2⟩]
  · rw [erase_not_mem hm, if_neg (fun h => hm ⟨h.1, Nat.le_of_lt_succ h.2⟩)]

lemma cut_cut {b r r' : Nat} (h1 : b ≤ r) (h2 : r ≤ r') :
    cut (cut U b r) r r' = cut U b r' := by
  funext x
  unfold cut
  by_cases h3 : r ≤ x ∧ x < r'
  · rw [if_pos h3, if_pos ⟨by omega, h3.2⟩]
  · rw [if_neg h3]
    by_cases h4 : b ≤ x ∧ x < r
    · rw [if_pos h4, if_pos ⟨h4.1, by omega⟩]
    · rw [if_neg h4, if_neg (by omega)]

/-- Pieces of the label come up until its range `[p.base, e]` is used up or another label's piece
comes up. -/
theorem drops_exist [DecidableEq α] {c : Cell α g.slots d} {e : Nat} (hc : Rep g c a U)
    (hp : c.own = some p)
    (hs : ∀ x, g.InSlot d a x → (U x = some p.label ↔ p.base ≤ x ∧ x ≤ e))
    (he : g.InSlot d a e) :
    ∃ c' rest n, Drops e c p.base c' rest n ∧ n ≤ count p.label c ∧ p.base < rest ∧
      rest ≤ e + 1 ∧ Rep g c' a (cut U p.base rest) ∧
      (rest ≤ e → ∀ p', c'.own = some p' → p'.label ≠ p.label) := by
  induction hn : count p.label c generalizing c U p with
  | zero =>
    obtain ⟨c₁, _, _, h3⟩ := drop_exists hc hp
    have := h3 p.label
    rw [if_pos rfl] at this
    omega
  | succ k ih =>
    have hf := rep_own hc hp
    have hle : p.limit ≤ e :=
      ((hs _ (hf.pieceIn.inSlot hf.pieceIn.mem_limit)).mp
        (hf.owned _ hf.pieceIn.mem_limit)).2
    have hbl := hf.pieceIn.base_le
    obtain ⟨c₁, hdrop, hrep, hcount⟩ := drop_exists hc hp
    have hs₁ : ∀ x, g.InSlot d a x →
        (erase U p x = some p.label ↔ p.limit + 1 ≤ x ∧ x ≤ e) := by
      intro x hx
      constructor
      · intro h
        obtain ⟨h1, h2⟩ := erase_some h
        have h3 := (hs x hx).mp h2
        refine ⟨?_, h3.2⟩
        by_contra h4
        exact h1 ⟨h3.1, by omega⟩
      · rintro ⟨h1, h2⟩
        rw [erase_not_mem (fun hm => absurd hm.2 (by omega))]
        exact (hs x hx).mpr ⟨by omega, h2⟩
    by_cases hnext : ∃ p', c₁.own = some p' ∧ p'.base = p.limit + 1 ∧ p'.limit ≤ e
    · obtain ⟨p', hp', hbase, hlimit⟩ := hnext
      have hf' := rep_own hrep hp'
      have hlabel : p'.label = p.label := by
        have h1 := hf'.owned _ hf'.pieceIn.mem_base
        have h2 := hf'.pieceIn.base_le
        rw [(hs₁ _ (hf'.pieceIn.inSlot hf'.pieceIn.mem_base)).mpr ⟨by omega, by omega⟩] at h1
        exact (Option.some.inj h1).symm
      have hk : count p'.label c₁ = k := by
        have := hcount p.label
        rw [if_pos rfl] at this
        rw [hlabel]
        omega
      obtain ⟨c', rest, n, h1, h2, h3, h4, h5, h6⟩ :=
        ih hrep hp' (by rw [hlabel, hbase]; exact hs₁) hk
      refine ⟨c', rest, n + 1, .more hp hdrop hp' hbase hlimit h1, by omega, by omega, h4, ?_, ?_⟩
      · rwa [erase_eq_cut, hbase, cut_cut (by omega) (by omega)] at h5
      · intro hrest q hq
        rw [← hlabel]
        exact h6 hrest q hq
    · refine ⟨c₁, p.limit + 1, 1, .last hp hdrop (fun p' hp' h => hnext ⟨p', hp', h⟩), by omega,
        by omega, by omega, erase_eq_cut ▸ hrep, ?_⟩
      intro hrest q hq hlabel
      have hf' := rep_own hrep hq
      have hmem : g.InSlot d a (p.limit + 1) :=
        ⟨by have := hf.pieceIn.le_base; omega, by have := he.2; omega⟩
      have h1 := (hs₁ _ (hf'.pieceIn.inSlot hf'.pieceIn.mem_base)).mp
        (hlabel ▸ hf'.owned _ hf'.pieceIn.mem_base)
      have h2 : ¬p.limit + 1 < q.base := fun hlt =>
        hf'.first _ hmem hlt (hlabel ▸ (hs₁ _ hmem).mpr ⟨le_refl _, hrest⟩)
      have h3 := (hs₁ _ (hf'.pieceIn.inSlot hf'.pieceIn.mem_limit)).mp
        (hlabel ▸ hf'.owned _ hf'.pieceIn.mem_limit)
      exact hnext ⟨q, hq, by omega, h3.2⟩

end Rep

end Ummu.Lib
