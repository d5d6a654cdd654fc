import Ummu.Lib.RadixFill

/-!
# How far a clear reaches

A clear changes the nodes whose own piece it takes away and what is below them, and the nodes whose
child block it empties. `Noted k` says that each of the former at an end of the range has depth at
most `k`; then all changes lie in slots of depth at most `k + 1` that meet the range.
-/

namespace Ummu.Lib

open Cell

variable {α : Type} {g : Geometry}

/-- The slot of the node at a path below the node of depth `d` at address `a` lies in `R`. -/
def SlotIn (g : Geometry) (R : Nat → Prop) : Nat → Nat → List (Fin g.slots) → Prop
  | d, a, [] => ∀ x, g.InSlot d a x → R x
  | 0, _, _ :: _ => True
  | d + 1, a, j :: path => SlotIn g R d (g.child d a j) path

/-- Each node at an end of the range whose own piece starts where its part of the range does has
depth at most `k`. -/
def Noted (g : Geometry) (k : Nat) : (d : Nat) → Nat → Cell α g.slots d → Nat → Nat → Prop
  | 0, _, _, _, _ => True
  | d + 1, a, c, b, e =>
    (∀ p, c.own = some p → p.base = b → d + 1 ≤ k) ∧
    ∀ p id sub, c = inner p id sub → p.base ≠ b → ∀ i : Fin g.slots, g.index d a b ≤ i →
      i ≤ g.index d a e → ¬Middle g d a b e i →
      Noted g k d (g.child d a i) (sub i) (g.clipLo d a b i) (g.clipHi d a e i)

def NotedBlock (g : Geometry) (k d a : Nat) (sub : Block α g.slots d) (b e : Nat) : Prop :=
  ∀ i : Fin g.slots, g.index d a b ≤ i → i ≤ g.index d a e → ¬Middle g d a b e i →
    Noted g k d (g.child d a i) (sub i) (g.clipLo d a b i) (g.clipHi d a e i)

/-- The node at each path below a node is the same, unless its slot lies in `R`. -/
def ChangedIn (g : Geometry) (R : Nat → Prop) (d a : Nat) (c c' : Cell α g.slots d) : Prop :=
  ∀ path, SlotIn g R d a path ∨ (c'.pieceAt path = c.pieceAt path ∧ c'.linkAt path = c.linkAt path)

section Extent

variable {R : Nat → Prop} {k D d a b e : Nat}

lemma SlotIn.of_slot {path : List (Fin g.slots)} (h : ∀ x, g.InSlot d a x → R x) :
    SlotIn g R d a path := by
  induction path generalizing d a with
  | nil => cases d <;> exact h
  | cons j path ih =>
    cases d with
    | zero => trivial
    | succ d => exact ih (fun x hx => h x (hx.of_child j.isLt))

lemma ChangedIn.of_slot {c c' : Cell α g.slots d} (h : ∀ x, g.InSlot d a x → R x) :
    ChangedIn g R d a c c' := fun _ => Or.inl (.of_slot h)

lemma ChangedIn.refl (c : Cell α g.slots d) : ChangedIn g R d a c c := fun _ => Or.inr ⟨rfl, rfl⟩

lemma Noted.mono {k' : Nat} {c : Cell α g.slots d} (h : Noted g k d a c b e) (hk : k ≤ k') :
    Noted g k' d a c b e := by
  induction d generalizing a b e with
  | zero => trivial
  | succ d ih =>
    refine ⟨fun p hp hb => (h.1 p hp hb).trans hk, fun p id sub hc hb i h1 h2 hm => ?_⟩
    exact ih (h.2 p id sub hc hb i h1 h2 hm)

lemma NotedBlock.mono {k' : Nat} {sub : Block α g.slots d} (h : NotedBlock g k d a sub b e)
    (hk : k ≤ k') : NotedBlock g k' d a sub b e := fun i h1 h2 hm => (h i h1 h2 hm).mono hk

/-- The changes below a node that keeps its piece. -/
lemma ChangedIn.inner {p : Piece α} {id : Nat} {sub sub' : Block α g.slots d}
    (h : ∀ i : Fin g.slots, ChangedIn g R d (g.child d a i) (sub i) (sub' i))
    (hempty : (∀ i, sub' i = empty) → ∀ x, g.InSlot (d + 1) a x → R x) :
    ChangedIn g R (d + 1) a (inner p id sub) (mkInner p id sub') := by
  by_cases hall : ∀ i, sub' i = empty
  · exact .of_slot (hempty hall)
  · push Not at hall
    rw [mkInner_of_ne hall]
    intro path
    cases path with
    | nil => exact Or.inr ⟨rfl, rfl⟩
    | cons j path => exact h j path

end Extent

end Ummu.Lib
