import Mathlib

/-!
# Radix trees whose inner nodes hold a piece

A node of a fixed-fanout radix tree covers a slot of addresses. A leaf holds one labelled piece
of its slot; an inner node holds a piece as well and has a block of child nodes for the rest.
`Rep` says which label owns each address of a slot, and is what the operations preserve.
-/

namespace Ummu.Lib

/-- `slots` children a block, `page` addresses in a slot of the lowest level. -/
structure Geometry where
  slots : Nat
  page : Nat
  slots_pos : 0 < slots
  page_pos : 0 < page

namespace Geometry

variable (g : Geometry)

/-- The number of addresses in a slot `d` levels above the lowest one. -/
def span (d : Nat) : Nat := g.page * g.slots ^ d

lemma span_pos (d : Nat) : 0 < g.span d :=
  Nat.mul_pos g.page_pos (Nat.pow_pos g.slots_pos)

lemma span_succ (d : Nat) : g.span (d + 1) = g.slots * g.span d := by
  unfold span
  rw [pow_succ]
  ring

/-- `x` lies in the slot of depth `d` at address `a`. -/
def InSlot (d a x : Nat) : Prop := a ≤ x ∧ x < a + g.span d

/-- The address of child slot `i` of the block at `a`. -/
def child (d a i : Nat) : Nat := a + i * g.span d

/-- The child slot of the block at `a` in which `x` lies. -/
def index (d a x : Nat) : Nat := (x - a) / g.span d

/-- The part of `[b, e]` in child slot `i` starts here. -/
def clipLo (d a b i : Nat) : Nat := if i = g.index d a b then b else g.child d a i

/-- The part of `[b, e]` in child slot `i` ends here. -/
def clipHi (d a e i : Nat) : Nat :=
  if i = g.index d a e then e else g.child d a i + (g.span d - 1)

variable {g} {d a x y b e i : Nat}

lemma inSlot_base (d a : Nat) : g.InSlot d a a := ⟨le_refl _, by have := g.span_pos d; omega⟩

lemma inSlot_child_iff : g.InSlot d (g.child d a i) x ↔ a ≤ x ∧ g.index d a x = i := by
  unfold InSlot child index
  have hs := g.span_pos d
  constructor
  · rintro ⟨h1, h2⟩
    refine ⟨by omega, ?_⟩
    rw [Nat.div_eq_iff hs]
    constructor
    · omega
    · have : (i + 1) * g.span d = i * g.span d + g.span d := by ring
      omega
  · rintro ⟨h1, rfl⟩
    have h3 := Nat.div_mul_le_self (x - a) (g.span d)
    have h4 := Nat.lt_div_mul_add (a := x - a) hs
    omega

lemma index_lt (h : g.InSlot (d + 1) a x) : g.index d a x < g.slots := by
  have h2 := h.2
  rw [g.span_succ] at h2
  unfold index
  rw [Nat.div_lt_iff_lt_mul (g.span_pos d)]
  have := h.1
  omega

lemma index_mono (h : x ≤ y) : g.index d a x ≤ g.index d a y :=
  Nat.div_le_div_right (by omega)

lemma InSlot.child_index (h : g.InSlot (d + 1) a x) :
    g.InSlot d (g.child d a (g.index d a x)) x :=
  inSlot_child_iff.mpr ⟨h.1, rfl⟩

lemma InSlot.of_child (hi : i < g.slots) (h : g.InSlot d (g.child d a i) x) :
    g.InSlot (d + 1) a x := by
  obtain ⟨h1, h2⟩ := h
  unfold Geometry.child at h1 h2
  refine ⟨by omega, ?_⟩
  rw [g.span_succ]
  have h3 : (i + 1) * g.span d ≤ g.slots * g.span d := Nat.mul_le_mul_right _ hi
  have h4 : (i + 1) * g.span d = i * g.span d + g.span d := by ring
  omega

lemma inSlot_child_lt {j : Nat} (h : g.InSlot d (g.child d a i) x)
    (h' : g.InSlot d (g.child d a j) y) (hij : i < j) : x < y := by
  by_contra hn
  have h1 := (inSlot_child_iff.mp h).2
  have h2 := (inSlot_child_iff.mp h').2
  have := g.index_mono (d := d) (a := a) (not_lt.mp hn)
  omega

/-- The slots from that of `b` to that of `e` cut `[b, e]` into their `[clipLo, clipHi]`. -/
lemma clip_iff (ha : a ≤ b) (hlo : g.index d a b ≤ i) (hhi : i ≤ g.index d a e)
    (hbe : b ≤ e) :
    (g.clipLo d a b i ≤ x ∧ x ≤ g.clipHi d a e i) ↔
      (g.InSlot d (g.child d a i) x ∧ b ≤ x ∧ x ≤ e) := by
  have hs := g.span_pos d
  have hb : g.InSlot d (g.child d a (g.index d a b)) b := inSlot_child_iff.mpr ⟨ha, rfl⟩
  have he : g.InSlot d (g.child d a (g.index d a e)) e := inSlot_child_iff.mpr ⟨by omega, rfl⟩
  have hself : g.InSlot d (g.child d a i) (g.child d a i) := inSlot_base _ _
  have hend : g.InSlot d (g.child d a i) (g.child d a i + (g.span d - 1)) :=
    ⟨by omega, by omega⟩
  unfold clipLo clipHi
  by_cases h1 : i = g.index d a b
  · rw [if_pos h1]
    rw [← h1] at hb
    by_cases h2 : i = g.index d a e
    · rw [if_pos h2]
      rw [← h2] at he
      have := hb.1
      have := he.2
      constructor
      · intro h
        exact ⟨⟨by omega, by omega⟩, h⟩
      · exact fun h => h.2
    · rw [if_neg h2]
      have hlt := inSlot_child_lt hend he (by omega)
      have := hb.1
      constructor
      · intro h
        exact ⟨⟨by omega, by omega⟩, h.1, by omega⟩
      · intro h
        have := h.1.2
        exact ⟨h.2.1, by omega⟩
  · rw [if_neg h1]
    have hlt := inSlot_child_lt hb hself (by omega)
    by_cases h2 : i = g.index d a e
    · rw [if_pos h2]
      rw [← h2] at he
      have := he.2
      constructor
      · intro h
        exact ⟨⟨h.1, by omega⟩, by omega, h.2⟩
      · exact fun h => ⟨h.1.1, h.2.2⟩
    · rw [if_neg h2]
      have hlt' := inSlot_child_lt hend he (by omega)
      constructor
      · intro h
        exact ⟨⟨h.1, by omega⟩, by omega, by omega⟩
      · intro h
        have := h.1.2
        exact ⟨h.1.1, by omega⟩

lemma clipLo_le_clipHi (ha : a ≤ b) (hbe : b ≤ e) : g.clipLo d a b i ≤ g.clipHi d a e i := by
  have hs := g.span_pos d
  have hb : g.InSlot d (g.child d a (g.index d a b)) b := inSlot_child_iff.mpr ⟨ha, rfl⟩
  have he : g.InSlot d (g.child d a (g.index d a e)) e := inSlot_child_iff.mpr ⟨by omega, rfl⟩
  unfold clipLo clipHi
  by_cases h1 : i = g.index d a b <;> by_cases h2 : i = g.index d a e
  · rwa [if_pos h1, if_pos h2]
  · rw [if_pos h1, if_neg h2]
    rw [← h1] at hb
    have := hb.2
    omega
  · rw [if_neg h1, if_pos h2]
    rw [← h2] at he
    exact he.1
  · rw [if_neg h1, if_neg h2]
    omega

/-- A slot strictly between the first and the last one is covered as a whole. -/
lemma clip_middle (h1 : g.index d a b < i) (h2 : i < g.index d a e) :
    g.clipLo d a b i = g.child d a i ∧ g.clipHi d a e i = g.child d a i + (g.span d - 1) := by
  unfold clipLo clipHi
  rw [if_neg (by omega), if_neg (by omega)]
  exact ⟨rfl, rfl⟩

end Geometry

/-- A labelled interval of addresses. -/
@[ext] structure Piece (α : Type) where
  base : Nat
  limit : Nat
  label : α

def Piece.Mem {α : Type} (p : Piece α) (x : Nat) : Prop := p.base ≤ x ∧ x ≤ p.limit

instance {α : Type} (p : Piece α) (x : Nat) : Decidable (p.Mem x) :=
  inferInstanceAs (Decidable (_ ∧ _))

/-- A node `d` levels above the lowest one. The lowest level has no inner nodes. -/
inductive Cell (α : Type) (F : Nat) : Nat → Type where
  | empty {d : Nat} : Cell α F d
  | leaf {d : Nat} (p : Piece α) : Cell α F d
  | inner {d : Nat} (p : Piece α) (id : Nat) (sub : Fin F → Cell α F d) : Cell α F (d + 1)

abbrev Block (α : Type) (F d : Nat) := Fin F → Cell α F d

namespace Cell

variable {α : Type} {F d : Nat}

/-- The piece that the node itself holds. -/
def own : Cell α F d → Option (Piece α)
  | empty => none
  | leaf p => some p
  | inner p _ _ => some p

def isEmpty : Cell α F d → Bool
  | empty => true
  | leaf _ => false
  | inner _ _ _ => false

@[simp] lemma isEmpty_empty : (empty : Cell α F d).isEmpty = true := rfl
@[simp] lemma isEmpty_leaf (p : Piece α) : (leaf p : Cell α F d).isEmpty = false := rfl
@[simp] lemma isEmpty_inner (p : Piece α) (id : Nat) (sub : Block α F d) :
    (inner p id sub).isEmpty = false := rfl

lemma isEmpty_iff {c : Cell α F d} : c.isEmpty = true ↔ c = empty := by
  cases c <;> simp

lemma ne_empty_of_own {c : Cell α F d} {p : Piece α} (h : c.own = some p) : c ≠ empty := by
  rintro rfl
  cases h

/-- A node whose child block is given up once it holds nothing. -/
def mkInner (p : Piece α) (id : Nat) (sub : Block α F d) : Cell α F (d + 1) :=
  if ∀ i, (sub i).isEmpty = true then leaf p else inner p id sub

lemma mkInner_of_empty {p : Piece α} {id : Nat} {sub : Block α F d} (h : ∀ i, sub i = empty) :
    mkInner p id sub = leaf p := if_pos (fun i => isEmpty_iff.mpr (h i))

lemma mkInner_of_ne {p : Piece α} {id : Nat} {sub : Block α F d} (h : ∃ i, sub i ≠ empty) :
    mkInner p id sub = inner p id sub := by
  obtain ⟨i, hi⟩ := h
  exact if_neg (fun h => hi (isEmpty_iff.mp (h i)))

@[simp] lemma own_mkInner (p : Piece α) (id : Nat) (sub : Block α F d) :
    (mkInner p id sub).own = some p := by
  unfold mkInner
  split <;> rfl

lemma mkInner_ne_empty (p : Piece α) (id : Nat) (sub : Block α F d) :
    mkInner p id sub ≠ empty := ne_empty_of_own (own_mkInner p id sub)

/-- The piece that the node at a path of child slots holds. -/
def pieceAt : {d : Nat} → Cell α F d → List (Fin F) → Option (Piece α)
  | _, c, [] => c.own
  | _, inner _ _ sub, i :: path => (sub i).pieceAt path
  | _, empty, _ :: _ => none
  | _, leaf _, _ :: _ => none

/-- The child block of the node at a path. -/
def linkAt : {d : Nat} → Cell α F d → List (Fin F) → Option Nat
  | _, inner _ id _, [] => some id
  | _, inner _ _ sub, i :: path => (sub i).linkAt path
  | _, empty, _ => none
  | _, leaf _, _ => none

/-- The block ids of the tree. -/
def ids : {d : Nat} → Cell α F d → Set Nat
  | _, empty => ∅
  | _, leaf _ => ∅
  | _, inner _ id sub => {id} ∪ ⋃ i, (sub i).ids

def blockIds (sub : Block α F d) : Set Nat := ⋃ i, (sub i).ids

@[simp] lemma ids_empty : (empty : Cell α F d).ids = ∅ := rfl
@[simp] lemma ids_leaf (p : Piece α) : (leaf p : Cell α F d).ids = ∅ := rfl
lemma ids_inner (p : Piece α) (id : Nat) (sub : Block α F d) :
    (inner p id sub).ids = {id} ∪ blockIds sub := rfl

/-- No two nodes of the tree share a child block. -/
def Separate : {d : Nat} → Cell α F d → Prop
  | _, empty => True
  | _, leaf _ => True
  | _, inner _ id sub =>
    (∀ i, id ∉ (sub i).ids) ∧ (∀ i j, i ≠ j → Disjoint (sub i).ids (sub j).ids) ∧
      ∀ i, (sub i).Separate

/-- A node with a child block holds a piece. -/
lemma pieceAt_of_linkAt {c : Cell α F d} {path : List (Fin F)} {id : Nat}
    (h : c.linkAt path = some id) : ∃ p, c.pieceAt path = some p := by
  induction c generalizing path with
  | empty => cases h
  | leaf p => cases h
  | inner p id' sub ih =>
    cases path with
    | nil => exact ⟨p, rfl⟩
    | cons i path => exact ih i h

lemma mem_ids_iff {c : Cell α F d} {id : Nat} : id ∈ c.ids ↔ ∃ path, c.linkAt path = some id := by
  induction c with
  | empty => exact ⟨fun h => h.elim, fun ⟨path, h⟩ => by cases h⟩
  | leaf p => exact ⟨fun h => h.elim, fun ⟨path, h⟩ => by cases h⟩
  | inner p id' sub ih =>
    rw [ids_inner]
    constructor
    · rintro (rfl | h)
      · exact ⟨[], rfl⟩
      · obtain ⟨i, hi⟩ := Set.mem_iUnion.mp h
        obtain ⟨path, hpath⟩ := (ih i).mp hi
        exact ⟨i :: path, hpath⟩
    · rintro ⟨path, h⟩
      cases path with
      | nil => exact Or.inl (Option.some.inj h).symm
      | cons i path => exact Or.inr (Set.mem_iUnion.mpr ⟨i, (ih i).mpr ⟨path, h⟩⟩)

/-- A block hangs below one node only. -/
lemma Separate.linkAt_unique {c : Cell α F d} {id : Nat} {path path' : List (Fin F)}
    (hc : c.Separate) (h : c.linkAt path = some id) (h' : c.linkAt path' = some id) :
    path = path' := by
  induction c generalizing path path' with
  | empty => cases h
  | leaf p => cases h
  | inner p id' sub ih =>
    obtain ⟨h1, h2, h3⟩ := hc
    cases path with
    | nil =>
      cases path' with
      | nil => rfl
      | cons j path' =>
        obtain rfl := Option.some.inj h
        exact (h1 j (mem_ids_iff.mpr ⟨path', h'⟩)).elim
    | cons i path =>
      cases path' with
      | nil =>
        obtain rfl := Option.some.inj h'
        exact (h1 i (mem_ids_iff.mpr ⟨path, h⟩)).elim
      | cons j path' =>
        by_cases hij : i = j
        · subst hij
          rw [ih i (h3 i) h h']
        · exact (Set.disjoint_left.mp (h2 i j hij) (mem_ids_iff.mpr ⟨path, h⟩)
            (mem_ids_iff.mpr ⟨path', h'⟩)).elim

/-- The child blocks are all in use. -/
def Inhabited : {d : Nat} → Cell α F d → Prop
  | _, empty => True
  | _, leaf _ => True
  | _, inner _ _ sub => (∃ i, sub i ≠ empty) ∧ ∀ i, (sub i).Inhabited

end Cell

section Rep

variable {α : Type} {g : Geometry} {d a : Nat} {U V : Nat → Option α} {p q : Piece α}

/-- The owners that are left when piece `p` is taken away. -/
def erase (U : Nat → Option α) (p : Piece α) : Nat → Option α :=
  fun x => if p.Mem x then none else U x

lemma erase_mem {x : Nat} (h : p.Mem x) : erase U p x = none := if_pos h

lemma erase_not_mem {x : Nat} (h : ¬p.Mem x) : erase U p x = U x := if_neg h

lemma erase_some {x : Nat} {s : α} (h : erase U p x = some s) : ¬p.Mem x ∧ U x = some s := by
  by_cases hx : p.Mem x
  · rw [erase_mem hx] at h
    cases h
  · exact ⟨hx, by rwa [erase_not_mem hx] at h⟩

/-- `p` is a nonempty interval of the slot. -/
structure PieceIn (g : Geometry) (d a : Nat) (p : Piece α) : Prop where
  le_base : a ≤ p.base
  base_le : p.base ≤ p.limit
  limit_lt : p.limit < a + g.span d

lemma PieceIn.inSlot (h : PieceIn g d a p) {x : Nat} (hx : p.Mem x) : g.InSlot d a x := by
  have h1 := h.le_base
  have h2 := h.limit_lt
  exact ⟨by have := hx.1; omega, by have := hx.2; omega⟩

lemma PieceIn.mem_base (h : PieceIn g d a p) : p.Mem p.base := ⟨le_refl _, h.base_le⟩

lemma PieceIn.mem_limit (h : PieceIn g d a p) : p.Mem p.limit := ⟨h.base_le, le_refl _⟩

lemma PieceIn.of_child {i : Nat} (hi : i < g.slots) (h : PieceIn g d (g.child d a i) p) :
    PieceIn g (d + 1) a p := by
  have h1 := (Geometry.InSlot.of_child hi (h.inSlot h.mem_base)).1
  have h2 := (Geometry.InSlot.of_child hi (h.inSlot h.mem_limit)).2
  exact ⟨h1, h.base_le, h2⟩

/-- `p` is the first piece of its label in the slot, and what an inner node may hold there. -/
structure HoldsFirst (g : Geometry) (d a : Nat) (U : Nat → Option α) (p : Piece α) : Prop where
  pieceIn : PieceIn g d a p
  owned : ∀ x, p.Mem x → U x = some p.label
  first : ∀ x, g.InSlot d a x → x < p.base → U x ≠ some p.label

/-- The node and what is below it hold the addresses of the slot that `U` gives an owner. -/
def Rep (g : Geometry) : {d : Nat} → Cell α g.slots d → Nat → (Nat → Option α) → Prop
  | d, .empty, a, U => ∀ x, g.InSlot d a x → U x = none
  | d, .leaf p, a, U => PieceIn g d a p ∧
      ∀ x, g.InSlot d a x → U x = if p.Mem x then some p.label else none
  | d + 1, .inner p _ sub, a, U => HoldsFirst g (d + 1) a U p ∧
      (¬∃ s, ∀ x, g.InSlot (d + 1) a x → U x = some s) ∧ (∃ i, sub i ≠ .empty) ∧
      ∀ i : Fin g.slots, Rep g (sub i) (g.child d a i) (erase U p)

/-- A block of nodes, each in its slot. -/
def BlockRep (g : Geometry) (d a : Nat) (sub : Block α g.slots d) (U : Nat → Option α) : Prop :=
  ∀ i : Fin g.slots, Rep g (sub i) (g.child d a i) U

lemma rep_congr {c : Cell α g.slots d} (h : ∀ x, g.InSlot d a x → U x = V x)
    (hc : Rep g c a U) : Rep g c a V := by
  induction c generalizing a U V with
  | empty => exact fun x hx => (h x hx).symm.trans (hc x hx)
  | leaf p => exact ⟨hc.1, fun x hx => (h x hx).symm.trans (hc.2 x hx)⟩
  | inner p id sub ih =>
    obtain ⟨hp, hmix, hne, hsub⟩ := hc
    refine ⟨⟨hp.pieceIn, ?_, ?_⟩, ?_, hne, ?_⟩
    · exact fun x hx => (h x (hp.pieceIn.inSlot hx)).symm.trans (hp.owned x hx)
    · intro x hx hlt
      rw [← h x hx]
      exact hp.first x hx hlt
    · rintro ⟨s, hs⟩
      exact hmix ⟨s, fun x hx => (h x hx).trans (hs x hx)⟩
    · intro i
      refine ih i (fun x hx => ?_) (hsub i)
      unfold erase
      rw [h x (Geometry.InSlot.of_child i.isLt hx)]

lemma rep_own {c : Cell α g.slots d} (hc : Rep g c a U) (hp : c.own = some p) :
    HoldsFirst g d a U p := by
  cases c with
  | empty => cases hp
  | leaf q =>
    obtain rfl := Option.some.inj hp
    refine ⟨hc.1, fun x hx => ?_, fun x hx hlt => ?_⟩
    · rw [hc.2 x (hc.1.inSlot hx)]
      exact if_pos hx
    · rw [hc.2 x hx, if_neg (fun hm => absurd hm.1 (by omega))]
      simp
  | inner q id sub =>
    obtain rfl := Option.some.inj hp
    exact hc.1

lemma rep_empty_of_none {c : Cell α g.slots d} (hc : Rep g c a U)
    (h : ∀ x, g.InSlot d a x → U x = none) : c = .empty := by
  cases hp : c.own with
  | none => cases c <;> first | rfl | cases hp
  | some p =>
    have hf := rep_own hc hp
    have h1 := hf.owned p.base hf.pieceIn.mem_base
    rw [h _ (hf.pieceIn.inSlot hf.pieceIn.mem_base)] at h1
    cases h1

/-- A slot with a single owner is held by one leaf. -/
lemma rep_leaf_of_whole {c : Cell α g.slots d} {s : α} (hc : Rep g c a U)
    (h : ∀ x, g.InSlot d a x → U x = some s) : ∃ p, c = .leaf p ∧ p.label = s := by
  cases c with
  | empty =>
    have h0 := hc a (Geometry.inSlot_base d a)
    rw [h a (Geometry.inSlot_base d a)] at h0
    cases h0
  | leaf p =>
    have h1 := (rep_own hc rfl).owned p.base hc.1.mem_base
    rw [h _ (hc.1.inSlot hc.1.mem_base)] at h1
    exact ⟨p, rfl, (Option.some.inj h1).symm⟩
  | inner p id sub => exact (hc.2.1 ⟨s, h⟩).elim

lemma rep_inhabited {c : Cell α g.slots d} (hc : Rep g c a U) : c.Inhabited := by
  induction c generalizing a U with
  | empty => trivial
  | leaf p => trivial
  | inner p id sub ih => exact ⟨hc.2.2.1, fun i => ih i (hc.2.2.2 i)⟩

lemma rep_pieceAt {c : Cell α g.slots d} {path : List (Fin g.slots)} (hc : Rep g c a U)
    (hq : c.pieceAt path = some q) : PieceIn g d a q ∧ ∀ x, q.Mem x → U x = some q.label := by
  induction c generalizing a U path with
  | empty => cases path <;> cases hq
  | leaf p =>
    cases path with
    | nil =>
      have hf := rep_own hc hq
      exact ⟨hf.pieceIn, hf.owned⟩
    | cons i path => cases hq
  | inner p id sub ih =>
    cases path with
    | nil =>
      have hf := rep_own hc hq
      exact ⟨hf.pieceIn, hf.owned⟩
    | cons i path =>
      obtain ⟨h1, h2⟩ := ih i (hc.2.2.2 i) hq
      exact ⟨h1.of_child i.isLt, fun x hx => (erase_some (h2 x hx)).2⟩

/-- Two nodes of the tree hold no common address. -/
theorem rep_pieceAt_unique {c : Cell α g.slots d} {path path' : List (Fin g.slots)} {x : Nat}
    (hc : Rep g c a U) (hq : c.pieceAt path = some p) (hq' : c.pieceAt path' = some q)
    (hx : p.Mem x) (hx' : q.Mem x) : path = path' := by
  induction c generalizing a U path path' with
  | empty => cases path <;> cases hq
  | leaf r =>
    cases path with
    | nil =>
      cases path' with
      | nil => rfl
      | cons j path' => cases hq'
    | cons i path => cases hq
  | inner r id sub ih =>
    have hsub := hc.2.2.2
    cases path with
    | nil =>
      cases path' with
      | nil => rfl
      | cons j path' =>
        obtain rfl := Option.some.inj hq
        have h1 := (rep_pieceAt (hsub j) hq').2 x hx'
        exact ((erase_some h1).1 hx).elim
    | cons i path =>
      cases path' with
      | nil =>
        obtain rfl := Option.some.inj hq'
        have h1 := (rep_pieceAt (hsub i) hq).2 x hx
        exact ((erase_some h1).1 hx').elim
      | cons j path' =>
        have h1 := (rep_pieceAt (hsub i) hq).1.inSlot hx
        have h2 := (rep_pieceAt (hsub j) hq').1.inSlot hx'
        have hij : i = j := Fin.ext ((Geometry.inSlot_child_iff.mp h1).2.symm.trans
          (Geometry.inSlot_child_iff.mp h2).2)
        subst hij
        rw [ih i (hsub i) hq hq']

/-- Every address with an owner is held by a node, under the label of that owner. -/
theorem rep_cover {c : Cell α g.slots d} {x : Nat} {s : α} (hc : Rep g c a U)
    (hx : g.InSlot d a x) (hs : U x = some s) :
    ∃ path q, c.pieceAt path = some q ∧ q.Mem x ∧ q.label = s := by
  induction c generalizing a U with
  | empty =>
    rw [hc x hx] at hs
    cases hs
  | leaf p =>
    rw [hc.2 x hx] at hs
    by_cases hm : p.Mem x
    · rw [if_pos hm] at hs
      exact ⟨[], p, rfl, hm, Option.some.inj hs⟩
    · rw [if_neg hm] at hs
      cases hs
  | @inner d p id sub ih =>
    by_cases hm : p.Mem x
    · have h1 := hc.1.owned x hm
      rw [h1] at hs
      exact ⟨[], p, rfl, hm, Option.some.inj hs⟩
    · have hi := Geometry.index_lt hx
      obtain ⟨path, q, h1, h2, h3⟩ := ih ⟨_, hi⟩ (hc.2.2.2 ⟨_, hi⟩) hx.child_index
        (by rwa [erase_not_mem hm])
      exact ⟨⟨_, hi⟩ :: path, q, h1, h2, h3⟩

end Rep

end Ummu.Lib
