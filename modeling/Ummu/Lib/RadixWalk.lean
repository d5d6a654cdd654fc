import Ummu.Lib.RadixPull

/-!
# Filling, clearing and relabelling a range

A walk visits the children of a block from the slot of `b` to that of `e`, hands each the part of
`[b, e]` in its slot, and may stop early. The three operations are given as relations between the
tree before and after; a fill that stops early is undone by the clear of the same range.
-/

namespace Ummu.Lib

open Cell

variable {α : Type} {g : Geometry}

abbrev Step (α : Type) (g : Geometry) (d : Nat) :=
  Fin g.slots → Cell α g.slots d → Nat → Nat → Cell α g.slots d → Bool → Prop

/-- The last child visited is `j`; the walk reaches its end if `ok`. -/
def Walk (g : Geometry) (d a : Nat) (R : Step α g d) (sub : Block α g.slots d) (b e : Nat)
    (sub' : Block α g.slots d) (ok : Bool) : Prop :=
  ∃ j : Fin g.slots, g.index d a b ≤ j ∧ j ≤ g.index d a e ∧ (ok = true → j = g.index d a e) ∧
    (∀ i : Fin g.slots, g.index d a b ≤ i → i < j →
      R i (sub i) (g.clipLo d a b i) (g.clipHi d a e i) (sub' i) true) ∧
    R j (sub j) (g.clipLo d a b j) (g.clipHi d a e j) (sub' j) ok ∧
    ∀ i : Fin g.slots, (i < g.index d a b ∨ j < i) → sub' i = sub i

/-- Child `i` is neither the first nor the last one of the walk over `[b, e]`. -/
def Middle (g : Geometry) (d a b e i : Nat) : Prop := g.index d a b < i ∧ i < g.index d a e

/-- `[b, e]` is filled with label `s`. A leaf in the way gets a child block, unless there is none
to be had. -/
def FillSlot (g : Geometry) (s : α) :
    (d : Nat) → Nat → Cell α g.slots d → Nat → Nat → Cell α g.slots d → Bool → Prop
  | 0, _, c, b, e, c', ok => c = empty ∧ c' = leaf ⟨b, e, s⟩ ∧ ok = true
  | d + 1, a, c, b, e, c', ok =>
    (c = empty ∧ c' = leaf ⟨b, e, s⟩ ∧ ok = true) ∨
    (∃ p, c = leaf p ∧ c' = leaf p ∧ ok = false) ∨
    (∃ p id sub', c = leaf p ∧ c' = inner p id sub' ∧
      Walk g d a (fun i c nb ne c' ok => (Middle g d a b e i → c = empty) ∧
        FillSlot g s d (g.child d a i) c nb ne c' ok) (fun _ => empty) b e sub' ok) ∨
    (∃ p id sub sub', c = inner p id sub ∧ c' = inner p id sub' ∧
      Walk g d a (fun i c nb ne c' ok => (Middle g d a b e i → c = empty) ∧
        FillSlot g s d (g.child d a i) c nb ne c' ok) sub b e sub' ok)

def FillBlock (g : Geometry) (s : α) (d a : Nat) (sub : Block α g.slots d) (b e : Nat)
    (sub' : Block α g.slots d) (ok : Bool) : Prop :=
  Walk g d a (fun i c nb ne c' ok => (Middle g d a b e i → c = empty) ∧
    FillSlot g s d (g.child d a i) c nb ne c' ok) sub b e sub' ok

/-- No child block is needed where nothing is filled yet. -/
lemma FillBlock.ok_of_empty {s : α} {d a b e : Nat} {sub sub' : Block α g.slots d} {ok : Bool}
    (h : FillBlock g s d a sub b e sub' ok) (hsub : ∀ i, sub i = empty) : ok = true := by
  obtain ⟨j, _, _, _, _, ⟨_, hslot⟩, _⟩ := h
  rw [hsub j] at hslot
  cases d with
  | zero => exact hslot.2.2
  | succ d =>
    rcases hslot with ⟨_, _, hok⟩ | ⟨_, hc, _⟩ | ⟨_, _, _, hc, _⟩ | ⟨_, _, _, _, hc, _⟩
    · exact hok
    · cases hc
    · cases hc
    · cases hc

/-- A leaf gives up the piece that starts at `b`; a leaf with another piece stops the walk. -/
def ClearLeaf {F d : Nat} (c : Cell α F d) (b : Nat) (c' : Cell α F d) (ok : Bool) : Prop :=
  (∃ p, c = leaf p ∧ p.base = b ∧ c' = empty ∧ ok = true) ∨
  (∃ p, c = leaf p ∧ p.base ≠ b ∧ c' = leaf p ∧ ok = false)

/-- The label that owns `[b, e]` is cleared. `pl` allows to take pieces away from inner nodes. -/
def ClearSlot (g : Geometry) (pl : Prop) :
    (d : Nat) → Nat → Cell α g.slots d → Nat → Nat → Cell α g.slots d → Bool → Prop
  | 0, _, c, b, _, c', ok => ClearLeaf c b c' ok
  | d + 1, a, c, b, e, c', ok =>
    ClearLeaf c b c' ok ∨
    (pl ∧ ∃ rest n, Drops e c b c' rest n ∧ n ≤ pieceBound g.slots (d + 1) ∧ e < rest ∧
      ok = true) ∨
    (pl ∧ ∃ p id sub sub' rest n, Drops e c b (inner p id sub) rest n ∧
      n ≤ pieceBound g.slots (d + 1) ∧ b < rest ∧ rest ≤ e ∧ c' = mkInner p id sub' ∧
      Walk g d a (fun i c nb ne c' ok => (Middle g d a rest e i → (∃ p, c = leaf p) ∧ ok = true) ∧
        ClearSlot g pl d (g.child d a i) c nb ne c' ok) sub rest e sub' ok) ∨
    (∃ p id sub sub', c = inner p id sub ∧ p.base ≠ b ∧ c' = mkInner p id sub' ∧
      Walk g d a (fun i c nb ne c' ok => (Middle g d a b e i → (∃ p, c = leaf p) ∧ ok = true) ∧
        ClearSlot g pl d (g.child d a i) c nb ne c' ok) sub b e sub' ok)

def ClearBlock (g : Geometry) (pl : Prop) (d a : Nat) (sub : Block α g.slots d) (b e : Nat)
    (sub' : Block α g.slots d) (ok : Bool) : Prop :=
  Walk g d a (fun i c nb ne c' ok => (Middle g d a b e i → (∃ p, c = leaf p) ∧ ok = true) ∧
    ClearSlot g pl d (g.child d a i) c nb ne c' ok) sub b e sub' ok

lemma ClearSlot.ne_empty {pl : Prop} {d a b e : Nat} {c c' : Cell α g.slots d} {ok : Bool}
    (h : ClearSlot g pl d a c b e c' ok) : c ≠ empty := by
  have hleaf : ClearLeaf c b c' ok → c ≠ empty := by
    rintro (⟨p, rfl, _⟩ | ⟨p, rfl, _⟩) he <;> cases he
  cases d with
  | zero => exact hleaf h
  | succ d =>
    rcases h with h | ⟨_, _, _, h, _⟩ | ⟨_, _, _, _, _, _, _, h, _⟩ | ⟨p, id, sub, _, hc, _⟩
    · exact hleaf h
    · obtain ⟨p, hp, _⟩ := h.own
      exact ne_empty_of_own hp
    · obtain ⟨p, hp, _⟩ := h.own
      exact ne_empty_of_own hp
    · rw [hc]
      exact fun he => by cases he

lemma ClearSlot.of_leaf {pl : Prop} {d a b e : Nat} {p : Piece α} {c' : Cell α g.slots d}
    (h : ClearSlot g pl d a (leaf p) b e c' true) : c' = empty := by
  have hleaf : ClearLeaf (leaf p) b c' true → c' = empty := by
    rintro (⟨_, _, _, hc, _⟩ | ⟨_, _, _, _, hok⟩)
    · exact hc
    · cases hok
  cases d with
  | zero => exact hleaf h
  | succ d =>
    rcases h with h | ⟨_, _, _, h, _⟩ | ⟨_, _, _, _, _, _, _, h, _⟩ | ⟨_, _, _, _, hc, _⟩
    · exact hleaf h
    · exact h.of_leaf
    · cases h.of_leaf
    · cases hc

def Piece.relabel (f : α → α) (p : Piece α) : Piece α := { p with label := f p.label }

/-- The node itself is relabelled, not what is below it. -/
def Cell.relabel {F : Nat} (f : α → α) : {d : Nat} → Cell α F d → Cell α F d
  | _, .empty => .empty
  | _, .leaf p => .leaf (p.relabel f)
  | _, .inner p id sub => .inner (p.relabel f) id sub

def UpdateLeaf {F d : Nat} (s : α) (f : α → α) (c : Cell α F d) (b e : Nat) (c' : Cell α F d) :
    Prop :=
  ∃ p, c = leaf p ∧ p.label = s ∧ p.base = b ∧ p.limit ≤ e ∧ c' = leaf (p.relabel f)

/-- The pieces of the label `s` that owns `[b, e]` get the label that `f` gives. -/
def UpdateSlot (g : Geometry) (s : α) (f : α → α) :
    (d : Nat) → Nat → Cell α g.slots d → Nat → Nat → Cell α g.slots d → Bool → Prop
  | 0, _, c, b, e, c', _ => UpdateLeaf s f c b e c'
  | d + 1, a, c, b, e, c', _ =>
    UpdateLeaf s f c b e c' ∨
    (∃ p id sub, c = inner p id sub ∧ p.label = s ∧ p.base = b ∧ p.limit = e ∧
      c' = inner (p.relabel f) id sub) ∨
    (∃ p id sub sub', c = inner p id sub ∧ p.label = s ∧ p.base = b ∧ p.limit < e ∧
      c' = inner (p.relabel f) id sub' ∧
      Walk g d a (fun i c nb ne c' ok => (Middle g d a (p.limit + 1) e i → ∃ p, c = leaf p) ∧
        UpdateSlot g s f d (g.child d a i) c nb ne c' ok) sub (p.limit + 1) e sub' true) ∨
    (∃ p id sub sub', c = inner p id sub ∧ p.base ≠ b ∧ c' = inner p id sub' ∧
      Walk g d a (fun i c nb ne c' ok => (Middle g d a b e i → ∃ p, c = leaf p) ∧
        UpdateSlot g s f d (g.child d a i) c nb ne c' ok) sub b e sub' true)

def UpdateBlock (g : Geometry) (s : α) (f : α → α) (d a : Nat) (sub : Block α g.slots d)
    (b e : Nat) (sub' : Block α g.slots d) (ok : Bool) : Prop :=
  Walk g d a (fun i c nb ne c' ok => (Middle g d a b e i → ∃ p, c = leaf p) ∧
    UpdateSlot g s f d (g.child d a i) c nb ne c' ok) sub b e sub' ok

lemma UpdateSlot.ne_empty {s : α} {f : α → α} {d a b e : Nat} {c c' : Cell α g.slots d} {ok : Bool}
    (h : UpdateSlot g s f d a c b e c' ok) : c ≠ empty ∧ c' ≠ empty := by
  have hleaf : UpdateLeaf s f c b e c' → c ≠ empty ∧ c' ≠ empty := by
    rintro ⟨p, rfl, _, _, _, rfl⟩
    exact ⟨ne_empty_of_own rfl, ne_empty_of_own rfl⟩
  cases d with
  | zero => exact hleaf h
  | succ d =>
    rcases h with h | ⟨_, _, _, rfl, _, _, _, rfl⟩ | ⟨_, _, _, _, rfl, _, _, _, rfl, _⟩ |
      ⟨_, _, _, _, rfl, _, rfl, _⟩
    · exact hleaf h
    · exact ⟨ne_empty_of_own rfl, ne_empty_of_own rfl⟩
    · exact ⟨ne_empty_of_own rfl, ne_empty_of_own rfl⟩
    · exact ⟨ne_empty_of_own rfl, ne_empty_of_own rfl⟩

lemma UpdateSlot.of_leaf {s : α} {f : α → α} {d a b e : Nat} {p : Piece α} {c' : Cell α g.slots d}
    {ok : Bool} (h : UpdateSlot g s f d a (leaf p) b e c' ok) :
    UpdateLeaf s f (leaf p) b e c' := by
  cases d with
  | zero => exact h
  | succ d =>
    rcases h with h | ⟨_, _, _, h, _⟩ | ⟨_, _, _, _, h, _⟩ | ⟨_, _, _, _, h, _⟩
    · exact h
    · cases h
    · cases h
    · cases h

/-- No inner node holds a piece with label `s`. -/
def LeafOnly (s : α) {F : Nat} : {d : Nat} → Cell α F d → Prop
  | _, .empty => True
  | _, .leaf _ => True
  | _, .inner p _ sub => p.label ≠ s ∧ ∀ i, LeafOnly s (sub i)

section Walk

variable {d a b e : Nat} {U V : Nat → Option α} {sub : Block α g.slots d}

/-- Where label `s` owns `[b, e]` of a block, it owns the clipped part of a child slot. -/
lemma owner_child {s : α} {i : Nat} (hab : a ≤ b) (hbe : b ≤ e) (hi : i < g.slots)
    (hs : ∀ x, g.InSlot (d + 1) a x → (U x = some s ↔ b ≤ x ∧ x ≤ e))
    (hlo : g.index d a b ≤ i) (hhi : i ≤ g.index d a e) (x : Nat)
    (hx : g.InSlot d (g.child d a i) x) :
    U x = some s ↔ g.clipLo d a b i ≤ x ∧ x ≤ g.clipHi d a e i := by
  rw [hs x (hx.of_child hi), Geometry.clip_iff hab hlo hhi hbe]
  exact ⟨fun h => ⟨hx, h⟩, fun h => h.2⟩

lemma clip_inSlot {i : Nat} (hab : a ≤ b) (hbe : b ≤ e) (hlo : g.index d a b ≤ i)
    (hhi : i ≤ g.index d a e) :
    g.InSlot d (g.child d a i) (g.clipLo d a b i) ∧
      g.InSlot d (g.child d a i) (g.clipHi d a e i) := by
  have hle := Geometry.clipLo_le_clipHi (g := g) (d := d) (i := i) hab hbe
  exact ⟨((Geometry.clip_iff hab hlo hhi hbe).mp ⟨le_refl _, hle⟩).1,
    ((Geometry.clip_iff hab hlo hhi hbe).mp ⟨hle, le_refl _⟩).1⟩

/-- A child strictly inside the walk whose slot has one owner is a leaf. -/
lemma middle_leaf {s : α} {i : Fin g.slots} (hsub : BlockRep g d a sub U)
    (hm : Middle g d a b e i)
    (hs : ∀ x, g.InSlot d (g.child d a i) x →
      (U x = some s ↔ g.clipLo d a b i ≤ x ∧ x ≤ g.clipHi d a e i)) :
    ∃ p, sub i = leaf p := by
  obtain ⟨h1, h2⟩ := Geometry.clip_middle hm.1 hm.2
  have hpos := g.span_pos d
  obtain ⟨p, hp, _⟩ := rep_leaf_of_whole (s := s) (hsub i) (fun x hx => by
    rw [hs x hx, h1, h2]
    exact ⟨hx.1, by have := hx.2; omega⟩)
  exact ⟨p, hp⟩

/-- A walk goes through if each of its steps does. -/
lemma walk_exists {R : Step α g d} (hbe : b ≤ e) (he : g.InSlot (d + 1) a e)
    (hsub : BlockRep g d a sub U) (hV : ∀ x, ¬(b ≤ x ∧ x ≤ e) → V x = U x)
    (hstep : ∀ i : Fin g.slots, g.index d a b ≤ i → i ≤ g.index d a e →
      ∃ c', R i (sub i) (g.clipLo d a b i) (g.clipHi d a e i) c' true ∧
        Rep g c' (g.child d a i) V) :
    ∃ sub', Walk g d a R sub b e sub' true ∧ BlockRep g d a sub' V := by
  have hall : ∀ i : Fin g.slots, ∃ c', Rep g c' (g.child d a i) V ∧
      (g.index d a b ≤ i ∧ i ≤ g.index d a e →
        R i (sub i) (g.clipLo d a b i) (g.clipHi d a e i) c' true) ∧
      (¬(g.index d a b ≤ i ∧ i ≤ g.index d a e) → c' = sub i) := by
    intro i
    by_cases hi : g.index d a b ≤ i ∧ i ≤ g.index d a e
    · obtain ⟨c', h1, h2⟩ := hstep i hi.1 hi.2
      exact ⟨c', h2, fun _ => h1, fun h => (h hi).elim⟩
    · refine ⟨sub i, rep_congr (fun x hx => (hV x ?_).symm) (hsub i), fun h => (hi h).elim,
        fun _ => rfl⟩
      rintro ⟨h1, h2⟩
      have h3 := (Geometry.inSlot_child_iff.mp hx).2
      have h4 := g.index_mono (d := d) (a := a) h1
      have h5 := g.index_mono (d := d) (a := a) h2
      exact hi ⟨by omega, by omega⟩
  choose sub' hrep hin hout using hall
  have hj := Geometry.index_lt he
  have hle := g.index_mono (d := d) (a := a) hbe
  refine ⟨sub', ⟨⟨_, hj⟩, hle, le_refl _, fun _ => rfl, fun i h1 h2 => ?_, ?_, fun i h => ?_⟩,
    hrep⟩
  · exact hin i ⟨h1, le_of_lt (Fin.lt_def.mp h2)⟩
  · exact hin ⟨_, hj⟩ ⟨hle, le_refl _⟩
  · refine hout i (fun hi => ?_)
    rcases h with h | h
    · omega
    · have := Fin.lt_def.mp h
      simp only at this
      omega

end Walk

end Ummu.Lib
