import Ummu.Lib.RadixWalk

/-!
# Clearing and relabelling what a label owns

For a tree that represents an ownership map and a label that owns exactly `[b, e]` of a slot, the
clear and the relabelling of `[b, e]` go through, and the tree then represents the map that is
meant.
-/

namespace Ummu.Lib

open Cell

variable {α : Type} {g : Geometry} {d a b e : Nat} {U : Nat → Option α} {s : α}

/-- `U` with `[b, e]` given to `s`. -/
def put (U : Nat → Option α) (b e : Nat) (s : α) : Nat → Option α :=
  fun x => if b ≤ x ∧ x ≤ e then some s else U x

lemma put_in {x : Nat} (h : b ≤ x ∧ x ≤ e) : put U b e s x = some s := if_pos h

lemma put_out {x : Nat} (h : ¬(b ≤ x ∧ x ≤ e)) : put U b e s x = U x := if_neg h

lemma cut_in {r x : Nat} (h : b ≤ x ∧ x < r) : cut U b r x = none := if_pos h

lemma cut_out {r x : Nat} (h : ¬(b ≤ x ∧ x < r)) : cut U b r x = U x := if_neg h

lemma cut_some {r x : Nat} {t : α} (h : cut U b r x = some t) :
    ¬(b ≤ x ∧ x < r) ∧ U x = some t := by
  by_cases hx : b ≤ x ∧ x < r
  · rw [cut_in hx] at h
    cases h
  · exact ⟨hx, by rwa [cut_out hx] at h⟩

lemma erase_cut {p : Piece α} {r : Nat} : erase (cut U b r) p = cut (erase U p) b r := by
  funext x
  by_cases h1 : p.Mem x
  · rw [erase_mem h1]
    by_cases h2 : b ≤ x ∧ x < r
    · rw [cut_in h2]
    · rw [cut_out h2, erase_mem h1]
  · rw [erase_not_mem h1]
    by_cases h2 : b ≤ x ∧ x < r
    · rw [cut_in h2, cut_in h2]
    · rw [cut_out h2, cut_out h2, erase_not_mem h1]

lemma erase_put {p : Piece α} (h : ∀ x, p.Mem x → ¬(b ≤ x ∧ x ≤ e)) :
    erase (put U b e s) p = put (erase U p) b e s := by
  funext x
  by_cases h1 : p.Mem x
  · rw [erase_mem h1, put_out (h x h1), erase_mem h1]
  · rw [erase_not_mem h1]
    by_cases h2 : b ≤ x ∧ x ≤ e
    · rw [put_in h2, put_in h2]
    · rw [put_out h2, put_out h2, erase_not_mem h1]

/-- What an inner node holds stays in place when the range of another label is cleared. -/
lemma holdsFirst_cut {p : Piece α} {r : Nat} (hf : HoldsFirst g d a U p)
    (h : ∀ x, p.Mem x → ¬(b ≤ x ∧ x < r)) : HoldsFirst g d a (cut U b r) p :=
  ⟨hf.pieceIn, fun x hx => (cut_out (h x hx)).trans (hf.owned x hx),
    fun x hx hlt hn => hf.first x hx hlt (cut_some hn).2⟩

/-- The own piece of a node whose label is not `s` lies outside the range of `s`. -/
lemma piece_outside {p : Piece α} (hf : HoldsFirst g d a U p) (hps : p.label ≠ s)
    (hs : ∀ x, g.InSlot d a x → (U x = some s ↔ b ≤ x ∧ x ≤ e)) (x : Nat) (hx : p.Mem x) :
    ¬(b ≤ x ∧ x ≤ e) := by
  intro h
  have h1 := (hs x (hf.pieceIn.inSlot hx)).mpr h
  rw [hf.owned x hx] at h1
  exact hps (Option.some.inj h1)

/-- The first piece of label `s` starts where its range does. -/
lemma first_base {p : Piece α} (hf : HoldsFirst g d a U p) (hps : p.label = s)
    (hs : ∀ x, g.InSlot d a x → (U x = some s ↔ b ≤ x ∧ x ≤ e)) (hb : g.InSlot d a b)
    (hbe : b ≤ e) : p.base = b := by
  have h1 := (hs _ (hf.pieceIn.inSlot hf.pieceIn.mem_base)).mp
    (hps ▸ hf.owned _ hf.pieceIn.mem_base)
  have h2 : ¬b < p.base := fun hlt =>
    hf.first b hb hlt (hps ▸ (hs b hb).mpr ⟨le_refl _, hbe⟩)
  omega

lemma first_limit {p : Piece α} (hf : HoldsFirst g d a U p) (hps : p.label = s)
    (hs : ∀ x, g.InSlot d a x → (U x = some s ↔ b ≤ x ∧ x ≤ e)) : p.limit ≤ e :=
  ((hs _ (hf.pieceIn.inSlot hf.pieceIn.mem_limit)).mp
    (hps ▸ hf.owned _ hf.pieceIn.mem_limit)).2

/-- The range of label `s` without the owners below its part from `r` on. -/
lemma owner_cut {r : Nat} (hbr : b ≤ r)
    (hs : ∀ x, g.InSlot d a x → (U x = some s ↔ b ≤ x ∧ x ≤ e)) (x : Nat)
    (hx : g.InSlot d a x) : cut U b r x = some s ↔ r ≤ x ∧ x ≤ e := by
  constructor
  · intro h
    obtain ⟨h1, h2⟩ := cut_some h
    have := (hs x hx).mp h2
    omega
  · intro h
    rw [cut_out (by omega)]
    exact (hs x hx).mpr ⟨by omega, h.2⟩

/-- A leaf in a slot in which `s` owns `[b, e]` holds just that. -/
lemma clear_leaf {p : Piece α} (hc : Rep g (leaf p : Cell α g.slots d) a U)
    (hs : ∀ x, g.InSlot d a x → (U x = some s ↔ b ≤ x ∧ x ≤ e)) (hb : g.InSlot d a b)
    (hbe : b ≤ e) : p.base = b ∧ p.label = s ∧
      Rep g (empty : Cell α g.slots d) a (cut U b (e + 1)) := by
  have hf := rep_own hc rfl
  have hps : p.label = s := by
    have h1 := (hs b hb).mpr ⟨le_refl _, hbe⟩
    rw [hc.2 b hb] at h1
    split at h1
    · exact Option.some.inj h1
    · cases h1
  refine ⟨first_base hf hps hs hb hbe, hps, fun x hx => ?_⟩
  by_cases hx' : b ≤ x ∧ x < e + 1
  · exact cut_in hx'
  · rw [cut_out hx', hc.2 x hx, if_neg]
    intro hm
    have := (hs x hx).mp (hps ▸ hf.owned x hm)
    omega

/-- The clear of a range goes through one level down. -/
def ClearsSlots (g : Geometry) (pl : Prop) (s : α) (d : Nat) : Prop :=
  ∀ (a b e : Nat) (U : Nat → Option α) (c : Cell α g.slots d), Rep g c a U →
    (∀ x, g.InSlot d a x → (U x = some s ↔ b ≤ x ∧ x ≤ e)) → g.InSlot d a b → g.InSlot d a e →
    b ≤ e → (pl ∨ LeafOnly s c) →
    ∃ c', ClearSlot g pl d a c b e c' true ∧ Rep g c' a (cut U b (e + 1))

lemma clearBlock_of_slots {pl : Prop} (ih : ClearsSlots g pl s d) {sub : Block α g.slots d}
    (hsub : BlockRep g d a sub U)
    (hs : ∀ x, g.InSlot (d + 1) a x → (U x = some s ↔ b ≤ x ∧ x ≤ e)) (hab : a ≤ b)
    (he : g.InSlot (d + 1) a e) (hbe : b ≤ e) (hpl : pl ∨ ∀ i, LeafOnly s (sub i)) :
    ∃ sub', ClearBlock g pl d a sub b e sub' true ∧ BlockRep g d a sub' (cut U b (e + 1)) := by
  refine walk_exists hbe he hsub (fun x hx => cut_out (fun h => hx ⟨h.1, by omega⟩))
    (fun i hlo hhi => ?_)
  have hown := owner_child hab hbe i.isLt hs hlo hhi
  have hclip := clip_inSlot hab hbe hlo hhi
  obtain ⟨c', h1, h2⟩ := ih _ _ _ U (sub i) (hsub i) hown hclip.1 hclip.2
    (Geometry.clipLo_le_clipHi hab hbe) (hpl.imp id (fun h => h i))
  refine ⟨c', ⟨fun hm => ⟨middle_leaf hsub hm hown, rfl⟩, h1⟩, rep_congr (fun x hx => ?_) h2⟩
  have hiff : (b ≤ x ∧ x ≤ e) ↔ (g.clipLo d a b i ≤ x ∧ x ≤ g.clipHi d a e i) := by
    rw [← hown x hx, ← hs x (hx.of_child i.isLt)]
  by_cases hin : b ≤ x ∧ x ≤ e
  · have := hiff.mp hin
    rw [cut_in ⟨hin.1, by omega⟩, cut_in ⟨this.1, by omega⟩]
  · have := fun h => hin (hiff.mpr h)
    rw [cut_out (fun h => hin ⟨h.1, by omega⟩), cut_out (fun h => this ⟨h.1, by omega⟩)]

/-- The range of `s` is cleared below an inner node that holds a piece of another label. -/
lemma clear_descend {pl : Prop} (ih : ClearsSlots g pl s d) {p : Piece α} {id : Nat}
    {sub : Block α g.slots d} (hc : Rep g (inner p id sub) a U) (hps : p.label ≠ s)
    (hs : ∀ x, g.InSlot (d + 1) a x → (U x = some s ↔ b ≤ x ∧ x ≤ e)) (hab : a ≤ b)
    (he : g.InSlot (d + 1) a e) (hbe : b ≤ e) (hpl : pl ∨ ∀ i, LeafOnly s (sub i)) :
    ∃ sub', ClearBlock g pl d a sub b e sub' true ∧
      Rep g (mkInner p id sub') a (cut U b (e + 1)) := by
  obtain ⟨hf, hmix, _, hsub⟩ := hc
  have hout := piece_outside hf hps hs
  obtain ⟨sub', h1, h2⟩ := clearBlock_of_slots ih (U := erase U p) hsub (fun x hx => by
    rw [← hs x hx]
    constructor
    · exact fun h => (erase_some h).2
    · intro h
      rw [erase_not_mem (fun hm => hout x hm ((hs x hx).mp h))]
      exact h) hab he hbe hpl
  refine ⟨sub', h1, rep_mkInner (holdsFirst_cut hf ?_) (fun _ => ?_) ?_⟩
  · exact fun x hx h => hout x hx ⟨h.1, by omega⟩
  · rintro ⟨t, ht⟩
    exact hmix ⟨t, fun x hx => (cut_some (ht x hx)).2⟩
  · rw [erase_cut]
    exact h2

/-- The clear of what a label owns in a slot goes through and clears just that. Without pull-ups
it goes through where only leaves hold pieces of the label. -/
theorem clear_exists [DecidableEq α] (pl : Prop) (s : α) (d : Nat) : ClearsSlots g pl s d := by
  induction d with
  | zero =>
    intro a b e U c hc hs hb he hbe _
    cases c with
    | empty =>
      have h1 := hc b hb
      rw [(hs b hb).mpr ⟨le_refl _, hbe⟩] at h1
      cases h1
    | leaf p =>
      obtain ⟨hbase, _, hrep⟩ := clear_leaf hc hs hb hbe
      exact ⟨empty, Or.inl ⟨p, rfl, hbase, rfl, rfl⟩, hrep⟩
  | succ d ih =>
    intro a b e U c hc hs hb he hbe hpl
    cases c with
    | empty =>
      have h1 := hc b hb
      rw [(hs b hb).mpr ⟨le_refl _, hbe⟩] at h1
      cases h1
    | leaf p =>
      obtain ⟨hbase, _, hrep⟩ := clear_leaf hc hs hb hbe
      exact ⟨empty, Or.inl (Or.inl ⟨p, rfl, hbase, rfl, rfl⟩), hrep⟩
    | inner p id sub =>
      have hf := hc.1
      by_cases hps : p.label = s
      · have hbase := first_base hf hps hs hb hbe
        have hpl' : pl := hpl.resolve_right (fun h => h.1 hps)
        subst hps
        obtain ⟨c', rest, n, hd, hn, hlt, hle, hrep, hnext⟩ :=
          drops_exist hc rfl (hbase ▸ hs) he
        rw [hbase] at hd hlt hrep
        have hn' : n ≤ pieceBound g.slots (d + 1) := le_trans hn (count_le hc ⟨b, e, hs⟩)
        by_cases hend : e < rest
        · obtain rfl : rest = e + 1 := by omega
          exact ⟨c', Or.inr (Or.inl ⟨hpl', _, n, hd, hn', hend, rfl⟩), hrep⟩
        · have hcut := owner_cut (le_of_lt hlt) hs
          have hrest : g.InSlot (d + 1) a rest :=
            ⟨by have := hb.1; omega, by have := he.2; omega⟩
          have hmem := (hcut rest hrest).mpr ⟨le_refl _, by omega⟩
          -- another label's piece came up, so the node still has a child block
          cases c' with
          | empty =>
            rw [hrep rest hrest] at hmem
            cases hmem
          | leaf q =>
            rw [hrep.2 rest hrest] at hmem
            split at hmem
            · exact (hnext (by omega) q rfl (Option.some.inj hmem)).elim
            · cases hmem
          | inner q id' sub₁ =>
            obtain ⟨sub', h1, h2⟩ := clear_descend ih hrep (hnext (by omega) q rfl) hcut
              (by have := hb.1; omega) he (by omega) (Or.inl hpl')
            refine ⟨_, Or.inr (Or.inr (Or.inl
              ⟨hpl', q, id', sub₁, sub', rest, n, hd, hn', hlt, by omega, rfl, h1⟩)), ?_⟩
            rwa [cut_cut (le_of_lt hlt) (by omega)] at h2
      · obtain ⟨sub', h1, h2⟩ := clear_descend ih hc hps hs hb.1 he hbe
          (hpl.imp (fun h => h) (fun h => h.2))
        refine ⟨_, Or.inr (Or.inr (Or.inr ⟨p, id, sub, sub', rfl, ?_, rfl, h1⟩)), h2⟩
        intro hbase
        exact piece_outside hf hps hs p.base hf.pieceIn.mem_base
          ⟨by omega, by have := hf.pieceIn.mem_base; omega⟩

end Ummu.Lib
