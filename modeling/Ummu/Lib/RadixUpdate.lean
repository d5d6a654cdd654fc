import Ummu.Lib.RadixClear

/-!
# Relabelling what a label owns

The walk over the range of a label finds all its pieces, wherever they hang, and gives each the
new label.
-/

namespace Ummu.Lib

open Cell

variable {α : Type} {g : Geometry} {d a b e : Nat} {U : Nat → Option α} {s : α} {f : α → α}

/-- The walk over the range of `s` goes through one level down. -/
def UpdatesSlots (g : Geometry) (f : α → α) (s : α) (d : Nat) : Prop :=
  ∀ (a b e : Nat) (U : Nat → Option α) (c : Cell α g.slots d), Rep g c a U →
    (∀ x, g.InSlot d a x → (U x = some s ↔ b ≤ x ∧ x ≤ e)) → g.InSlot d a b → g.InSlot d a e →
    b ≤ e → (∀ x, g.InSlot d a x → U x = some (f s) → U x = some s) →
    ∃ c', UpdateSlot g s f d a c b e c' true ∧ Rep g c' a (put U b e (f s))

lemma updateBlock_of_slots (ih : UpdatesSlots g f s d) {sub : Block α g.slots d}
    (hsub : BlockRep g d a sub U)
    (hs : ∀ x, g.InSlot (d + 1) a x → (U x = some s ↔ b ≤ x ∧ x ≤ e)) (hab : a ≤ b)
    (he : g.InSlot (d + 1) a e) (hbe : b ≤ e)
    (hnew : ∀ x, g.InSlot (d + 1) a x → U x = some (f s) → U x = some s) :
    ∃ sub', UpdateBlock g s f d a sub b e sub' true ∧ BlockRep g d a sub' (put U b e (f s)) := by
  refine walk_exists hbe he hsub (fun x hx => put_out hx) (fun i hlo hhi => ?_)
  have hown := owner_child hab hbe i.isLt hs hlo hhi
  have hclip := clip_inSlot hab hbe hlo hhi
  obtain ⟨c', h1, h2⟩ := ih _ _ _ U (sub i) (hsub i) hown hclip.1 hclip.2
    (Geometry.clipLo_le_clipHi hab hbe) (fun x hx => hnew x (hx.of_child i.isLt))
  refine ⟨c', ⟨fun hm => middle_leaf hsub hm hown, h1⟩, rep_congr (fun x hx => ?_) h2⟩
  have hiff : (b ≤ x ∧ x ≤ e) ↔ (g.clipLo d a b i ≤ x ∧ x ≤ g.clipHi d a e i) := by
    rw [← hown x hx, ← hs x (hx.of_child i.isLt)]
  by_cases hin : b ≤ x ∧ x ≤ e
  · rw [put_in hin, put_in (hiff.mp hin)]
  · rw [put_out hin, put_out (fun h => hin (hiff.mpr h))]

/-- The leaf that holds the range of `s` is relabelled. -/
lemma update_leaf {p : Piece α} (hc : Rep g (leaf p : Cell α g.slots d) a U)
    (hs : ∀ x, g.InSlot d a x → (U x = some s ↔ b ≤ x ∧ x ≤ e)) (hb : g.InSlot d a b)
    (hbe : b ≤ e) :
    UpdateLeaf s f (leaf p : Cell α g.slots d) b e (leaf (p.relabel f)) ∧
      Rep g (leaf (p.relabel f) : Cell α g.slots d) a (put U b e (f s)) := by
  obtain ⟨hbase, hps, _⟩ := clear_leaf hc hs hb hbe
  have hf := rep_own hc rfl
  have hlimit := first_limit hf hps hs
  refine ⟨⟨p, rfl, hps, hbase, hlimit, rfl⟩, ⟨hc.1.le_base, hc.1.base_le, hc.1.limit_lt⟩,
    fun x hx => ?_⟩
  have hmem : (p.relabel f).Mem x ↔ b ≤ x ∧ x ≤ e := by
    rw [← hs x hx, hc.2 x hx]
    change p.Mem x ↔ _
    by_cases hm : p.Mem x
    · simp [hm, hps]
    · simp [hm]
  by_cases hin : b ≤ x ∧ x ≤ e
  · rw [put_in hin, if_pos (hmem.mpr hin), ← hps]
    rfl
  · rw [put_out hin, if_neg (fun h => hin (hmem.mp h)), hc.2 x hx]
    exact if_neg (fun h => hin (hmem.mp h))

/-- An inner node keeps what it holds, up to the label, when the range of `s` is relabelled. -/
lemma rep_inner_put {p q : Piece α} {id : Nat} {sub sub' : Block α g.slots d}
    (hc : Rep g (inner p id sub) a U)
    (hs : ∀ x, g.InSlot (d + 1) a x → (U x = some s ↔ b ≤ x ∧ x ≤ e))
    (hb : g.InSlot (d + 1) a b) (hbe : b ≤ e)
    (hnew : ∀ x, g.InSlot (d + 1) a x → U x = some (f s) → U x = some s)
    (hq : (p.label = s ∧ q = p.relabel f) ∨ (p.label ≠ s ∧ q = p))
    (hsub : BlockRep g d a sub' (erase (put U b e (f s)) q)) (hne : ∃ i, sub' i ≠ empty) :
    Rep g (inner q id sub') a (put U b e (f s)) := by
  obtain ⟨hf, hmix, _, _⟩ := hc
  have hput : ∀ x, g.InSlot (d + 1) a x → put U b e (f s) x = some (f s) → U x = some s := by
    intro x hx h
    by_cases hin : b ≤ x ∧ x ≤ e
    · exact (hs x hx).mpr hin
    · rw [put_out hin] at h
      exact hnew x hx h
  have hmem : q.base = p.base ∧ q.limit = p.limit := by
    rcases hq with ⟨_, rfl⟩ | ⟨_, rfl⟩ <;> exact ⟨rfl, rfl⟩
  have hpieceIn : PieceIn g (d + 1) a q :=
    ⟨hmem.1 ▸ hf.pieceIn.le_base, by rw [hmem.1, hmem.2]; exact hf.pieceIn.base_le,
      hmem.2 ▸ hf.pieceIn.limit_lt⟩
  have howned : ∀ x, p.Mem x → put U b e (f s) x = some q.label := by
    intro x hx
    have hU := hf.owned x hx
    rcases hq with ⟨hps, rfl⟩ | ⟨hps, rfl⟩
    · rw [hps] at hU
      rw [put_in ((hs x (hf.pieceIn.inSlot hx)).mp hU), ← hps]
      rfl
    · rw [put_out (piece_outside hf hps hs x hx)]
      exact hU
  refine ⟨⟨hpieceIn, ?_, ?_⟩, ?_, hne, hsub⟩
  · intro x hx
    exact howned x ⟨hmem.1 ▸ hx.1, hmem.2 ▸ hx.2⟩
  · intro x hx hlt h
    rw [hmem.1] at hlt
    rcases hq with ⟨hps, rfl⟩ | ⟨hps, rfl⟩
    · have h1 : put U b e (f s) x = some (f s) := by
        rw [h, ← hps]
        rfl
      exact hf.first x hx hlt (hps ▸ hput x hx h1)
    · by_cases hin : b ≤ x ∧ x ≤ e
      · rw [put_in hin] at h
        have h1 := hf.owned _ hf.pieceIn.mem_base
        rw [← h] at h1
        have h2 := hnew _ (hf.pieceIn.inSlot hf.pieceIn.mem_base) h1
        rw [h1] at h2
        exact hps ((Option.some.inj h).symm.trans (Option.some.inj h2))
      · rw [put_out hin] at h
        exact hf.first x hx hlt h
  · rintro ⟨t, ht⟩
    have hb' := ht b hb
    rw [put_in ⟨le_refl _, hbe⟩] at hb'
    obtain rfl := Option.some.inj hb'
    exact hmix ⟨s, fun x hx => hput x hx (ht x hx)⟩

/-- A block that represents a map keeps a child in use when the map is relabelled. -/
lemma block_ne_of_owner {sub : Block α g.slots d} {x : Nat} {t : α} (hsub : BlockRep g d a sub U)
    (hx : g.InSlot (d + 1) a x) (h : U x = some t) : ∃ i, sub i ≠ empty := by
  refine ⟨⟨_, Geometry.index_lt hx⟩, fun he => ?_⟩
  have h1 := hsub ⟨_, Geometry.index_lt hx⟩
  rw [he] at h1
  rw [h1 x hx.child_index] at h
  cases h

lemma owner_of_block_ne {sub : Block α g.slots d} (hsub : BlockRep g d a sub U)
    (h : ∃ i, sub i ≠ empty) : ∃ x t, g.InSlot (d + 1) a x ∧ U x = some t := by
  obtain ⟨i, hi⟩ := h
  by_contra hn
  push Not at hn
  refine hi (rep_empty_of_none (hsub i) (fun x hx => ?_))
  cases hU : U x with
  | none => rfl
  | some t => exact (hn x t (hx.of_child i.isLt) hU).elim

/-- The walk over what a label owns in a slot goes through and relabels just that. -/
theorem update_exists (f : α → α) (s : α) (d : Nat) : UpdatesSlots g f s d := by
  induction d with
  | zero =>
    intro a b e U c hc hs hb he hbe _
    cases c with
    | empty =>
      have h1 := hc b hb
      rw [(hs b hb).mpr ⟨le_refl _, hbe⟩] at h1
      cases h1
    | leaf p => exact ⟨_, update_leaf hc hs hb hbe⟩
  | succ d ih =>
    intro a b e U c hc hs hb he hbe hnew
    cases c with
    | empty =>
      have h1 := hc b hb
      rw [(hs b hb).mpr ⟨le_refl _, hbe⟩] at h1
      cases h1
    | leaf p =>
      obtain ⟨h1, h2⟩ := update_leaf (f := f) hc hs hb hbe
      exact ⟨_, Or.inl h1, h2⟩
    | inner p id sub =>
      have hf := hc.1
      have hpb := hf.pieceIn.base_le
      by_cases hps : p.label = s
      · have hbase := first_base hf hps hs hb hbe
        have hlimit := first_limit hf hps hs
        by_cases hlt : p.limit < e
        · -- the rest of the range is below
          have hs' : ∀ x, g.InSlot (d + 1) a x →
              (erase U p x = some s ↔ p.limit + 1 ≤ x ∧ x ≤ e) := by
            intro x hx
            rw [erase_eq_cut, hbase]
            exact owner_cut (by omega) hs x hx
          obtain ⟨sub', h1, h2⟩ := updateBlock_of_slots ih hc.2.2.2 hs'
            (by have := hb.1; omega) he (by omega) (fun x hx h => by
              obtain ⟨h3, h4⟩ := erase_some h
              rw [erase_not_mem h3]
              exact hnew x hx h4)
          have hmap : put (erase U p) (p.limit + 1) e (f s) =
              erase (put U b e (f s)) (p.relabel f) := by
            funext x
            by_cases hm : p.Mem x
            · have hm' : (p.relabel f).Mem x := hm
              have := hm.2
              rw [erase_mem hm', put_out (by omega), erase_mem hm]
            · have hm' : ¬(p.relabel f).Mem x := hm
              rw [erase_not_mem hm']
              by_cases hin : p.limit + 1 ≤ x ∧ x ≤ e
              · rw [put_in hin, put_in ⟨by omega, hin.2⟩]
              · have hout : ¬(b ≤ x ∧ x ≤ e) := by
                  rintro ⟨h3, h4⟩
                  exact hm ⟨by omega, by omega⟩
                rw [put_out hin, put_out hout, erase_not_mem hm]
          rw [hmap] at h2
          refine ⟨_, Or.inr (Or.inr (Or.inl ⟨p, id, sub, sub', rfl, hps, hbase, hlt, rfl, h1⟩)),
            rep_inner_put hc hs hb hbe hnew (Or.inl ⟨hps, rfl⟩) h2 ?_⟩
          refine block_ne_of_owner (x := e) (t := f s) h2 he ?_
          rw [← hmap, put_in ⟨by omega, le_refl _⟩]
        · obtain rfl : p.limit = e := by omega
          have hmap : erase U p = erase (put U b p.limit (f s)) (p.relabel f) := by
            funext x
            by_cases hm : p.Mem x
            · have hm' : (p.relabel f).Mem x := hm
              rw [erase_mem hm', erase_mem hm]
            · have hm' : ¬(p.relabel f).Mem x := hm
              have hout : ¬(b ≤ x ∧ x ≤ p.limit) := fun h => hm ⟨by omega, h.2⟩
              rw [erase_not_mem hm', put_out hout, erase_not_mem hm]
          refine ⟨_, Or.inr (Or.inl ⟨p, id, sub, rfl, hps, hbase, rfl, rfl⟩),
            rep_inner_put hc hs hb hbe hnew (Or.inl ⟨hps, rfl⟩) ?_ hc.2.2.1⟩
          rw [← hmap]
          exact hc.2.2.2
      · have hout := piece_outside hf hps hs
        obtain ⟨sub', h1, h2⟩ := updateBlock_of_slots ih hc.2.2.2 (fun x hx => by
          rw [← hs x hx]
          constructor
          · exact fun h => (erase_some h).2
          · intro h
            rw [erase_not_mem (fun hm => hout x hm ((hs x hx).mp h))]
            exact h) hb.1 he hbe (fun x hx h => by
              obtain ⟨h3, h4⟩ := erase_some h
              rw [erase_not_mem h3]
              exact hnew x hx h4)
        rw [← erase_put hout] at h2
        refine ⟨_, Or.inr (Or.inr (Or.inr ⟨p, id, sub, sub', rfl, ?_, rfl, h1⟩)),
          rep_inner_put hc hs hb hbe hnew (Or.inr ⟨hps, rfl⟩) h2 ?_⟩
        · intro hbase
          exact hout p.base hf.pieceIn.mem_base ⟨by omega, by omega⟩
        · refine block_ne_of_owner (x := b) (t := f s) h2 hb ?_
          rw [erase_put hout, put_in ⟨le_refl _, hbe⟩]

end Ummu.Lib
