import Ummu.Reach
import Ummu.TidCalls

/-!
# The table refines the range table

The device sees the nodes that it reaches from level block 0. In every state of a tid whose record
allocations succeed, they denote the recorded segments, each address once, with the attributes of
its record.
-/

namespace Ummu

open Lib Machine Cell

/-- The node at `q` is valid, and the address lies in its range. -/
def Place.Covers (c : TableCtx) (q : Place) (x : Nat) : Prop :=
  (c.node q.blk q.off).valid = true ∧ q.addr + (c.node q.blk q.off).base ≤ x ∧
    x ≤ q.addr + (c.node q.blk q.off).limit

/-- The node has the attributes of the record; its nonce is the token count where there is a token
check, and under `y` everywhere. -/
structure Carries (y : Prop) (n : TableNode) (s : SegInfo) : Prop where
  permission : n.permission.toNat = s.permission.toNat
  eBit : n.eBit.toNat = s.eBit.toNat
  tokenCheck : n.tokenCheck = s.tokenCheck
  nonce : s.tokenCheck = true ∨ y → n.nonce.toNat = s.tokenCount.toNat
  tokens : s.tokenCheck = true → n.tokenVal0 = s.tokenVal0 ∧ n.tokenVal1 = s.tokenVal1

/-- The nodes that are reached cover no address twice. Each record is covered by nodes that lie in
it and carry its attributes, and no node covers anything else. -/
structure TableRefines (y : Prop) (c : TableCtx) (t : RangeTable) : Prop where
  disjoint : ∀ path path' q q' x, c.reach rootPlace path = some q →
    c.reach rootPlace path' = some q' → q.Covers c x → q'.Covers c x → path = path'
  tiled : ∀ e ∈ t, ∀ x, e.1.left ≤ x → x ≤ e.1.right →
    ∃ path q, c.reach rootPlace path = some q ∧ q.Covers c x ∧ Carries y (c.node q.blk q.off) e.2
  within : ∀ path q, c.reach rootPlace path = some q → (c.node q.blk q.off).valid = true →
    ∃ e ∈ t, e.1.left ≤ q.addr + (c.node q.blk q.off).base ∧
      (c.node q.blk q.off).base ≤ (c.node q.blk q.off).limit ∧
      q.addr + (c.node q.blk q.off).limit ≤ e.1.right ∧ Carries y (c.node q.blk q.off) e.2

section Refines

variable {y : Prop} {c : TableCtx} {t : RangeTable} {sub : SegBlock 3} {q : Place}

/-- A valid node that is reached denotes a piece of the tree. -/
lemma reach_piece {z : NodeRule} (h : BlockAt z c 0 0 sub) {i : Fin tableGeometry.slots}
    {path : List (Fin tableGeometry.slots)} (hq : c.reach rootPlace (i :: path) = some q)
    (hv : (c.node q.blk q.off).valid = true) :
    ∃ d p, (sub i).pieceAt path = some p ∧ Denotes z d q.addr (c.node q.blk q.off) p := by
  obtain ⟨d, l, j, a, cell, _, _, hj, rfl, hcell, hown, _⟩ := reach_cell (le_refl 3) h hq
  have hne : cell ≠ empty := fun he =>
    Bool.false_ne_true (((cellAt_valid hcell).mpr he).symm.trans hv)
  obtain ⟨p, hp⟩ : ∃ p, cell.own = some p := by
    cases cell with
    | empty => exact (hne rfl).elim
    | leaf p => exact ⟨p, rfl⟩
    | inner p id sub => exact ⟨p, rfl⟩
  exact ⟨d, p, hown ▸ hp, (cellAt_own hcell hp).2⟩

lemma Denotes.covers_iff {z : NodeRule} {d x : Nat} {p : Piece SegInfo}
    (h : Denotes z d q.addr (c.node q.blk q.off) p) (hv : (c.node q.blk q.off).valid = true) :
    q.Covers c x ↔ p.Mem x := by
  rw [Place.Covers, Piece.Mem, ← h.base, ← h.limit]
  exact ⟨fun hx => hx.2, fun hx => ⟨hv, hx⟩⟩

lemma Denotes.carries {n : TableNode} {d a : Nat} {p : Piece SegInfo}
    (h : Denotes (.ofRecord y) d a n p) (hperm : p.label.permission.toNat < 2 ^ 6)
    (hebit : p.label.eBit.toNat < 2) : Carries y n p.label := by
  refine ⟨?_, ?_, h.attrs.tokenCheck, h.tokens, h.attrs.tokens⟩
  · rw [h.attrs.permission, BitVec.toNat_setWidth, Nat.mod_eq_of_lt hperm]
  · rw [h.attrs.eBit, BitVec.getLsbD, Nat.testBit_zero]
    have hcases : p.label.eBit.toNat = 0 ∨ p.label.eBit.toNat = 1 := by omega
    rcases hcases with h0 | h1
    · rw [h0]
      rfl
    · rw [h1]
      rfl

/-- The tree that represents the owners of the range table makes the table refine it. -/
theorem TableInv.refines (h : TableInv y c t sub) : TableRefines y c t := by
  have hrep := h.tree.rep
  refine ⟨fun path path' q q' x hq hq' hx hx' => ?_, fun e he x h1 h2 => ?_,
    fun path q hq hv => ?_⟩
  · cases path with
    | nil => cases hq
    | cons i path =>
      cases path' with
      | nil => cases hq'
      | cons j path' =>
        obtain ⟨d, p, hp, hden⟩ := reach_piece hrep hq hx.1
        obtain ⟨d', p', hp', hden'⟩ := reach_piece hrep hq' hx'.1
        have hm := (hden.covers_iff hx.1).mp hx
        have hm' := (hden'.covers_iff hx'.1).mp hx'
        have hi := (rep_pieceAt (h.rep i) hp).1.inSlot hm
        have hj := (rep_pieceAt (h.rep j) hp').1.inSlot hm'
        have hij : i = j := Fin.ext ((Geometry.inSlot_child_iff.mp hi).2.symm.trans
          (Geometry.inSlot_child_iff.mp hj).2)
        subst hij
        rw [rep_pieceAt_unique (h.rep i) hp hp' hm hm']
  · have hok := h.segs.ok e he
    have hlt := hok.lt
    have hin : tableGeometry.InSlot 4 0 x := inSlot_top.mpr (by omega)
    obtain ⟨path, p, hp, hm, hlabel⟩ := rep_cover (h.rep ⟨_, Geometry.index_lt hin⟩)
      hin.child_index ((ownerOf_seg h.segs he).mpr ⟨h1, h2⟩)
    obtain ⟨q, hq⟩ := reach_of_piece (le_refl 3) hrep hp
    have hcell := reach_cell (le_refl 3) hrep hq
    obtain ⟨d, l, j, a, cell, _, _, hj, rfl, hcell, hown, _⟩ := hcell
    obtain ⟨hv, hden⟩ := cellAt_own hcell (hown.trans hp)
    refine ⟨_, _, hq, (hden.covers_iff (q := ⟨_, l / 4, 512 * (l % 4) + j, a⟩) hv).mpr hm, ?_⟩
    rw [← hlabel]
    exact hden.carries (hlabel ▸ hok.permission) (hlabel ▸ hok.eBit)
  · cases path with
    | nil => cases hq
    | cons i path =>
      obtain ⟨d, p, hp, hden⟩ := reach_piece hrep hq hv
      obtain ⟨hin, howner⟩ := rep_pieceAt (h.rep i) hp
      obtain ⟨e, he, hlabel, hb, _⟩ := (ownerOf_some h.segs).mp (howner _ hin.mem_base)
      have hlimit := (ownerOf_seg h.segs he).mp (hlabel ▸ howner _ hin.mem_limit)
      have hok := h.segs.ok e he
      rw [hden.base] at hb
      rw [hden.limit] at hlimit
      refine ⟨e, he, hb, hden.base_le, hlimit.2, ?_⟩
      rw [hlabel]
      exact hden.carries (hlabel ▸ hok.permission) (hlabel ▸ hok.eBit)

/-- The table refines the range table in every state of a table-mode tid. -/
theorem tidReach_refines {info : MaptInfo} {c : TableCtx} {o : Option RangeTable}
    (h : TidReach y (fun _ call => call.RecordAlloc) info) (hb : info.blockBase = .tableCtx c o) :
    ∃ t, o = some t ∧ TableRefines y c t := by
  obtain ⟨t, sub, rfl, hinv⟩ := tidReach_table h hb
  exact ⟨t, rfl, hinv.refines⟩

theorem tidReach_refines_page : ∃ c t,
    (pageGrant.run (newTid .zero)).info.blockBase = .tableCtx c (some t) ∧ t.length = 1 ∧
      TableRefines True c t := by
  obtain ⟨t, ht, h⟩ := tidReach_refines (pageGrant_reach (n := .zero) rfl (fun _ => rfl)) rfl
  obtain rfl := Option.some.inj ht
  exact ⟨_, _, rfl, rfl, h⟩

/-- A mapped block whose nodes are not valid but hold a nonce gives that nonce to a node without a
token check. -/
theorem tidReach_not_refines :
    ¬∀ (info : MaptInfo) (c : TableCtx) (t : RangeTable),
      TidReach False (fun _ call => call.RecordAlloc) info →
        info.blockBase = .tableCtx c (some t) → TableRefines True c t := by
  intro hall
  have h := hall _ _ _ (pageGrant_reach (n := { TableNode.zero with nonce := 3 }) rfl
    (fun h => h.elim)) rfl
  obtain ⟨e, he, _, _, _, hcarries⟩ := h.within [0] ⟨0, 0, 0, 0⟩ rfl rfl
  obtain rfl := List.mem_singleton.mp he
  exact absurd (hcarries.nonce (Or.inr trivial)) (by decide)

end Refines

end Ummu
