import Ummu.Lib.RadixUpdate

/-!
# Filling a free range

A fill never meets a node it cannot handle where the pages of its range have no owner. If it goes
through, the tree represents the map with the range given to its label. Whether or not it goes
through, the clear of the same range takes the tree back to what it was.
-/

namespace Ummu.Lib

open Cell

variable {α : Type} {g : Geometry} {d a b e : Nat} {U : Nat → Option α} {s : α}

/-- The fill of `[b, e]` finds the nodes it needs: nothing in the lowest slots that it visits, and
nothing in the slots that it covers. -/
def FillReady (g : Geometry) : (d : Nat) → Nat → Cell α g.slots d → Nat → Nat → Prop
  | 0, _, c, _, _ => c = empty
  | d + 1, a, c, b, e => ∀ p id sub, c = inner p id sub →
      ∀ i : Fin g.slots, g.index d a b ≤ i → i ≤ g.index d a e →
        (Middle g d a b e i → sub i = empty) ∧
        FillReady g d (g.child d a i) (sub i) (g.clipLo d a b i) (g.clipHi d a e i)

def FillBlockReady (g : Geometry) (d a : Nat) (sub : Block α g.slots d) (b e : Nat) : Prop :=
  ∀ i : Fin g.slots, g.index d a b ≤ i → i ≤ g.index d a e →
    (Middle g d a b e i → sub i = empty) ∧
    FillReady g d (g.child d a i) (sub i) (g.clipLo d a b i) (g.clipHi d a e i)

lemma fillReady_empty (d a b e : Nat) : FillReady g d a (empty : Cell α g.slots d) b e := by
  cases d with
  | zero => rfl
  | succ d =>
    intro p id sub h
    cases h

/-- No page that `[b, e]` touches has an owner. -/
def FreePages (g : Geometry) (U : Nat → Option α) (b e : Nat) : Prop :=
  ∀ x, b / g.page ≤ x / g.page → x / g.page ≤ e / g.page → U x = none

lemma FreePages.none_of_mem {x : Nat} (h : FreePages g U b e) (h1 : b ≤ x) (h2 : x ≤ e) :
    U x = none := h x (Nat.div_le_div_right h1) (Nat.div_le_div_right h2)

lemma FreePages.erase {p : Piece α} (h : FreePages g U b e) : FreePages g (erase U p) b e := by
  intro x h1 h2
  by_cases hm : p.Mem x
  · exact erase_mem hm
  · rw [erase_not_mem hm]
    exact h x h1 h2

lemma FreePages.mono {b' e' : Nat} (h : FreePages g U b e) (hb : b ≤ b') (he : e' ≤ e) :
    FreePages g U b' e' :=
  fun x h1 h2 => h x (le_trans (Nat.div_le_div_right hb) h1)
    (le_trans h2 (Nat.div_le_div_right he))

lemma page_dvd_child {i : Nat} (ha : g.page ∣ a) : g.page ∣ g.child d a i :=
  Nat.dvd_add ha (Dvd.dvd.mul_left (Dvd.intro _ rfl) i)

lemma clip_le {i : Nat} (hab : a ≤ b) (hbe : b ≤ e) (hlo : g.index d a b ≤ i)
    (hhi : i ≤ g.index d a e) : b ≤ g.clipLo d a b i ∧ g.clipHi d a e i ≤ e := by
  have hle := Geometry.clipLo_le_clipHi (g := g) (d := d) (i := i) hab hbe
  exact ⟨((Geometry.clip_iff hab hlo hhi hbe).mp ⟨le_refl _, hle⟩).2.1,
    ((Geometry.clip_iff hab hlo hhi hbe).mp ⟨hle, le_refl _⟩).2.2⟩

lemma fillReady_of_free {c : Cell α g.slots d} (ha : g.page ∣ a) (hc : Rep g c a U)
    (hfree : FreePages g U b e) (hb : g.InSlot d a b) (hbe : b ≤ e) :
    FillReady g d a c b e := by
  induction d generalizing a b e U with
  | zero =>
    obtain ⟨k, rfl⟩ := ha
    have hspan : g.span 0 = g.page := by simp [Geometry.span]
    refine rep_empty_of_none hc (fun x hx => ?_)
    have hpage : ∀ y, g.InSlot 0 (g.page * k) y → y / g.page = k := by
      rintro y ⟨h1, h2⟩
      rw [hspan] at h2
      rw [Nat.div_eq_iff g.page_pos]
      constructor
      · have := Nat.mul_comm g.page k
        omega
      · have := Nat.mul_comm g.page k
        omega
    apply hfree x
    · rw [hpage x hx, hpage b hb]
    · rw [hpage x hx, ← hpage b hb]
      exact Nat.div_le_div_right hbe
  | succ d ih =>
    intro p id sub hcs i hlo hhi
    subst hcs
    have hsub := hc.2.2.2
    have hclip := clip_inSlot hb.1 hbe hlo hhi
    have hle := clip_le hb.1 hbe hlo hhi
    refine ⟨fun hm => rep_empty_of_none (hsub i) (fun x hx => ?_),
      ih (page_dvd_child ha) (hsub i) (hfree.erase.mono hle.1 hle.2) hclip.1
        (Geometry.clipLo_le_clipHi hb.1 hbe)⟩
    obtain ⟨h1, h2⟩ := Geometry.clip_middle hm.1 hm.2
    have hx' : g.clipLo d a b i ≤ x ∧ x ≤ g.clipHi d a e i := by
      rw [h1, h2]
      exact ⟨hx.1, by have := hx.2; have := g.span_pos d; omega⟩
    exact hfree.erase.none_of_mem (le_trans hle.1 hx'.1) (le_trans hx'.2 hle.2)

lemma fillBlockReady_of_free {sub : Block α g.slots d} (ha : g.page ∣ a)
    (hsub : BlockRep g d a sub U) (hfree : FreePages g U b e) (hab : a ≤ b) (hbe : b ≤ e) :
    FillBlockReady g d a sub b e := by
  intro i hlo hhi
  have hclip := clip_inSlot hab hbe hlo hhi
  have hle := clip_le hab hbe hlo hhi
  refine ⟨fun hm => rep_empty_of_none (hsub i) (fun x hx => ?_),
    fillReady_of_free (page_dvd_child ha) (hsub i) (hfree.mono hle.1 hle.2) hclip.1
      (Geometry.clipLo_le_clipHi hab hbe)⟩
  obtain ⟨h1, h2⟩ := Geometry.clip_middle hm.1 hm.2
  have hx' : g.clipLo d a b i ≤ x ∧ x ≤ g.clipHi d a e i := by
    rw [h1, h2]
    exact ⟨hx.1, by have := hx.2; have := g.span_pos d; omega⟩
  exact hfree.none_of_mem (le_trans hle.1 hx'.1) (le_trans hx'.2 hle.2)

lemma fillSlot_empty {c' : Cell α g.slots d} {ok : Bool}
    (h : FillSlot g s d a empty b e c' ok) : c' = leaf ⟨b, e, s⟩ ∧ ok = true := by
  cases d with
  | zero => exact h.2
  | succ d =>
    rcases h with h | ⟨p, h, _⟩ | ⟨p, id, sub', h, _⟩ | ⟨p, id, sub, sub', h, _⟩
    · exact h.2
    · cases h
    · cases h
    · cases h

/-- Nodes of an empty block do not stop a fill. -/
lemma fillBlock_empty {sub' : Block α g.slots d} {ok : Bool}
    (h : FillBlock g s d a (fun _ => empty) b e sub' ok) : ok = true := by
  obtain ⟨j, _, _, _, _, hj, _⟩ := h
  exact (fillSlot_empty hj.2).2

/-- Where the fill of a block went through, its children hold the map with the range given. -/
lemma walk_rep {V : Nat → Option α} {R : Step α g d} {sub sub' : Block α g.slots d}
    (h : Walk g d a R sub b e sub' true) (hsub : BlockRep g d a sub U)
    (hV : ∀ x, ¬(b ≤ x ∧ x ≤ e) → V x = U x)
    (hstep : ∀ i : Fin g.slots, g.index d a b ≤ i → i ≤ g.index d a e →
      R i (sub i) (g.clipLo d a b i) (g.clipHi d a e i) (sub' i) true →
      Rep g (sub' i) (g.child d a i) V) : BlockRep g d a sub' V := by
  obtain ⟨j, hj1, _, hj3, hlt, hj, hout⟩ := h
  have hje := hj3 rfl
  intro i
  by_cases hi : g.index d a b ≤ i ∧ i ≤ g.index d a e
  · by_cases hij : i = j
    · subst hij
      exact hstep i hi.1 hi.2 hj
    · exact hstep i hi.1 hi.2 (hlt i hi.1 (Fin.lt_def.mpr (by
        have : i.val ≠ j.val := fun h => hij (Fin.ext h)
        omega)))
  · rw [hout i (by rw [Fin.lt_def]; omega)]
    refine rep_congr (fun x hx => (hV x ?_).symm) (hsub i)
    rintro ⟨h1, h2⟩
    have h3 := (Geometry.inSlot_child_iff.mp hx).2
    have h4 := g.index_mono (d := d) (a := a) h1
    have h5 := g.index_mono (d := d) (a := a) h2
    exact hi ⟨by omega, by omega⟩

/-- A fill that goes through one level down represents the map with the range given. -/
def FillsSlots (g : Geometry) (s : α) (d : Nat) : Prop :=
  ∀ (a b e : Nat) (U : Nat → Option α) (c c' : Cell α g.slots d),
    FillSlot g s d a c b e c' true → Rep g c a U → (∀ x, b ≤ x → x ≤ e → U x = none) →
    (∀ x, g.InSlot d a x → U x ≠ some s) → g.InSlot d a b → g.InSlot d a e → b ≤ e →
    Rep g c' a (put U b e s)

lemma fillBlock_of_slots (ih : FillsSlots g s d) {sub sub' : Block α g.slots d}
    (h : FillBlock g s d a sub b e sub' true) (hsub : BlockRep g d a sub U)
    (hfree : ∀ x, b ≤ x → x ≤ e → U x = none)
    (hnew : ∀ x, g.InSlot (d + 1) a x → U x ≠ some s) (hab : a ≤ b) (hbe : b ≤ e) :
    BlockRep g d a sub' (put U b e s) := by
  refine walk_rep h hsub (fun x hx => put_out hx) (fun i hlo hhi hi => ?_)
  have hclip := clip_inSlot hab hbe hlo hhi
  have hle := clip_le hab hbe hlo hhi
  have hrep := ih _ _ _ U _ _ hi.2 (hsub i)
    (fun x h1 h2 => hfree x (le_trans hle.1 h1) (le_trans h2 hle.2))
    (fun x hx => hnew x (hx.of_child i.isLt)) hclip.1 hclip.2
    (Geometry.clipLo_le_clipHi hab hbe)
  refine rep_congr (fun x hx => ?_) hrep
  have hiff := Geometry.clip_iff (g := g) (x := x) hab hlo hhi hbe
  by_cases hin : b ≤ x ∧ x ≤ e
  · rw [put_in hin, put_in (hiff.mpr ⟨hx, hin⟩)]
  · rw [put_out hin, put_out (fun h => hin (hiff.mp h).2)]

/-- An inner node keeps its piece when a free range below it is given to a new label. -/
lemma rep_inner_fill {p : Piece α} {id : Nat} {sub' : Block α g.slots d}
    (hf : HoldsFirst g (d + 1) a U p) (hfree : ∀ x, b ≤ x → x ≤ e → U x = none)
    (hnew : ∀ x, g.InSlot (d + 1) a x → U x ≠ some s) (hb : g.InSlot (d + 1) a b)
    (hbe : b ≤ e) (hsub : BlockRep g d a sub' (put (erase U p) b e s)) :
    Rep g (inner p id sub') a (put U b e s) := by
  have hout : ∀ x, p.Mem x → ¬(b ≤ x ∧ x ≤ e) := by
    intro x hx h
    have h1 := hf.owned x hx
    rw [hfree x h.1 h.2] at h1
    cases h1
  have hbase := hf.owned _ hf.pieceIn.mem_base
  have hps : p.label ≠ s := fun h =>
    hnew _ (hf.pieceIn.inSlot hf.pieceIn.mem_base) (h ▸ hbase)
  refine ⟨⟨hf.pieceIn, fun x hx => (put_out (hout x hx)).trans (hf.owned x hx), ?_⟩, ?_,
    block_ne_of_owner hsub hb (put_in ⟨le_refl _, hbe⟩), by rw [erase_put hout]; exact hsub⟩
  · intro x hx hlt h
    by_cases hin : b ≤ x ∧ x ≤ e
    · rw [put_in hin] at h
      exact hps (Option.some.inj h).symm
    · rw [put_out hin] at h
      exact hf.first x hx hlt h
  · rintro ⟨t, ht⟩
    have h1 := ht b hb
    rw [put_in ⟨le_refl _, hbe⟩] at h1
    have h2 := ht _ (hf.pieceIn.inSlot hf.pieceIn.mem_base)
    rw [put_out (hout _ hf.pieceIn.mem_base), hbase] at h2
    exact hps ((Option.some.inj h2).trans (Option.some.inj h1).symm)

theorem fill_rep (s : α) (d : Nat) : FillsSlots g s d := by
  have hleaf : ∀ (d a b e : Nat) (U : Nat → Option α), (∀ x, g.InSlot d a x → U x = none) →
      g.InSlot d a b → g.InSlot d a e → b ≤ e →
      Rep g (leaf ⟨b, e, s⟩ : Cell α g.slots d) a (put U b e s) := by
    intro d a b e U hU hb he hbe
    refine ⟨⟨hb.1, hbe, he.2⟩, fun x hx => ?_⟩
    by_cases hin : b ≤ x ∧ x ≤ e
    · exact (put_in hin).trans (if_pos hin).symm
    · exact (put_out hin).trans ((hU x hx).trans (if_neg hin).symm)
  induction d with
  | zero =>
    intro a b e U c c' h hc _ _ hb he hbe
    obtain ⟨rfl, rfl, _⟩ := h
    exact hleaf 0 a b e U hc hb he hbe
  | succ d ih =>
    intro a b e U c c' h hc hfree hnew hb he hbe
    rcases h with ⟨rfl, rfl, _⟩ | ⟨p, _, _, h⟩ | ⟨p, id, sub', rfl, rfl, h⟩ |
      ⟨p, id, sub, sub', rfl, rfl, h⟩
    · exact hleaf (d + 1) a b e U hc hb he hbe
    · cases h
    · have hempty : BlockRep g d a (fun _ => empty) (erase U p) := by
        intro i x hx
        exact rep_erase_leaf hc x (hx.of_child i.isLt)
      exact rep_inner_fill (rep_own hc rfl) hfree hnew hb hbe
        (fillBlock_of_slots ih h hempty (fun x h1 h2 => by
          by_cases hm : p.Mem x
          · exact erase_mem hm
          · rw [erase_not_mem hm]
            exact hfree x h1 h2) (fun x hx h => hnew x hx (erase_some h).2) hb.1 hbe)
    · exact rep_inner_fill hc.1 hfree hnew hb hbe
        (fillBlock_of_slots ih h hc.2.2.2 (fun x h1 h2 => by
          by_cases hm : p.Mem x
          · exact erase_mem hm
          · rw [erase_not_mem hm]
            exact hfree x h1 h2) (fun x hx h => hnew x hx (erase_some h).2) hb.1 hbe)

/-- No node of the tree holds a piece that starts in `[b, e]`. -/
def Avoids {F : Nat} (c : Cell α F d) (b e : Nat) : Prop :=
  ∀ path q, c.pieceAt path = some q → ¬(b ≤ q.base ∧ q.base ≤ e)

lemma Avoids.sub {F : Nat} {p : Piece α} {id : Nat} {sub : Block α F d}
    (h : Avoids (inner p id sub) b e) (i : Fin F) {b' e' : Nat} (hb : b ≤ b') (he : e' ≤ e) :
    Avoids (sub i) b' e' :=
  fun path q hq hm => h (i :: path) q hq ⟨le_trans hb hm.1, le_trans hm.2 he⟩

/-- The clear of the range of a fill takes the fill back, one level down. -/
def ClearsFills (g : Geometry) (s : α) (d : Nat) : Prop :=
  ∀ (a b e : Nat) (c c' : Cell α g.slots d) (ok : Bool), FillSlot g s d a c b e c' ok →
    a ≤ b → b ≤ e → c.Inhabited → Avoids c b e → ClearSlot g False d a c' b e c ok

lemma clearBlock_of_fills (ih : ClearsFills g s d) {sub sub' : Block α g.slots d} {ok : Bool}
    (h : FillBlock g s d a sub b e sub' ok) (hab : a ≤ b) (hbe : b ≤ e)
    (hin : ∀ i, (sub i).Inhabited) (hav : ∀ i b' e', b ≤ b' → e' ≤ e → Avoids (sub i) b' e') :
    ClearBlock g False d a sub' b e sub ok := by
  have hstep : ∀ (i : Fin g.slots) (ok : Bool), g.index d a b ≤ i → i ≤ g.index d a e →
      ((Middle g d a b e i → sub i = empty) ∧ FillSlot g s d (g.child d a i) (sub i)
        (g.clipLo d a b i) (g.clipHi d a e i) (sub' i) ok) →
      (Middle g d a b e i → (∃ p, sub' i = leaf p) ∧ ok = true) ∧ ClearSlot g False d (g.child d a i) (sub' i)
        (g.clipLo d a b i) (g.clipHi d a e i) (sub i) ok := by
    rintro i ok hlo hhi ⟨hmid, hfill⟩
    have hle := clip_le hab hbe hlo hhi
    refine ⟨fun hm => ?_, ih _ _ _ _ _ _ hfill (clip_inSlot hab hbe hlo hhi).1.1
      (Geometry.clipLo_le_clipHi hab hbe) (hin i) (hav i _ _ hle.1 hle.2)⟩
    rw [hmid hm] at hfill
    exact ⟨⟨_, (fillSlot_empty hfill).1⟩, (fillSlot_empty hfill).2⟩
  obtain ⟨j, hj1, hj2, hj3, hlt, hj, hout⟩ := h
  refine ⟨j, hj1, hj2, hj3, fun i h1 h2 => ?_, hstep j ok hj1 hj2 hj,
    fun i hi => (hout i hi).symm⟩
  exact hstep i true h1 (by have := Fin.lt_def.mp h2; omega) (hlt i h1 h2)

/-- A fill, complete or stopped early, is undone by the clear of its range: the tree is the same
as before, and no piece is taken away from an inner node. -/
theorem fill_clear (s : α) (d : Nat) : ClearsFills g s d := by
  induction d with
  | zero =>
    rintro a b e c c' ok ⟨rfl, rfl, rfl⟩ _ _ _ _
    exact Or.inl ⟨_, rfl, rfl, rfl, rfl⟩
  | succ d ih =>
    intro a b e c c' ok h hab hbe hin hav
    rcases h with ⟨rfl, rfl, rfl⟩ | ⟨p, rfl, rfl, rfl⟩ | ⟨p, id, sub', rfl, rfl, h⟩ |
      ⟨p, id, sub, sub', rfl, rfl, h⟩
    · exact Or.inl (Or.inl ⟨_, rfl, rfl, rfl, rfl⟩)
    · refine Or.inl (Or.inr ⟨p, rfl, fun hb => hav [] p rfl ⟨by omega, by omega⟩, rfl, rfl⟩)
    · refine Or.inr (Or.inr (Or.inr ⟨p, id, sub', fun _ => empty, rfl,
        fun hb => hav [] p rfl ⟨by omega, by omega⟩, (mkInner_of_empty (fun _ => rfl)).symm,
        clearBlock_of_fills ih h hab hbe (fun _ => trivial) (fun i b' e' _ _ path q hq => ?_)⟩))
      cases path <;> cases hq
    · refine Or.inr (Or.inr (Or.inr ⟨p, id, sub', sub, rfl,
        fun hb => hav [] p rfl ⟨by omega, by omega⟩, (mkInner_of_ne hin.1).symm,
        clearBlock_of_fills ih h hab hbe hin.2 (fun i b' e' h1 h2 => hav.sub i h1 h2)⟩))

end Ummu.Lib
