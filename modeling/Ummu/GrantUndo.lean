import Ummu.SameTable
import Ummu.Bounds
import Ummu.Revocable

/-!
# Grants that are undone

A grant that fails leaves a tid that cannot be told from the one before, unless it is the `calloc`
of the segment record that fails. An ungrant right after a grant takes back all that the grant did.
-/

namespace Ummu

open Lib Machine Cell

/-- The same entry node, or the same records and tables that say the same. -/
inductive SameBase : BlockBase → BlockBase → Prop where
  | entry (node : EntryNode) : SameBase (.entryBlock node) (.entryBlock node)
  | table {c c' : TableCtx} (t : Option RangeTable) (h : SameCtx c c') :
      SameBase (.tableCtx c t) (.tableCtx c' t)

structure SameTid (info info' : MaptInfo) : Prop where
  tid : info'.tid = info.tid
  valid : info'.valid = info.valid
  doublePlbi : info'.doublePlbi = info.doublePlbi
  kcmdPlbi : info'.kcmdPlbi = info.kcmdPlbi
  base : SameBase info.blockBase info'.blockBase

section Records

variable {t t' : RangeTable} {d : DataInfo}

end Records

section Same

variable {y : Prop} {c : TableCtx}

lemma SameNode.refl (n : TableNode) : SameNode n n :=
  ⟨rfl, fun _ => rfl, fun _ => ⟨rfl, rfl⟩, fun _ => ⟨rfl, rfl, rfl⟩, fun _ => rfl,
    fun _ _ => ⟨rfl, rfl, rfl⟩⟩

lemma SameCtx.refl (c : TableCtx) : SameCtx c c := by
  refine ⟨rfl, rfl, rfl, rfl, fun _ => rfl, fun k b b' hb hb' => ?_, fun _ => rfl, fun _ => rfl,
    fun _ _ _ => .refl _⟩
  obtain rfl := Option.some.inj (hb.symm.trans hb')
  exact ⟨rfl, rfl⟩

lemma SameBase.refl (b : BlockBase) : SameBase b b := by
  cases b with
  | entryBlock node => exact .entry node
  | tableCtx c t => exact .table t (.refl c)

lemma SameTid.refl (info : MaptInfo) : SameTid info info := ⟨rfl, rfl, rfl, rfl, .refl _⟩

end Same

section Table

variable {y : Prop} {z : NodeRule} {c : TableCtx} {t : RangeTable} {sub sub' : SegBlock 3}
  {d d' : DataInfo} {m : Machine} {maps : List MapOutcome} {l : Nat}

end Table

section Calls

variable {y : Prop} {info : MaptInfo} {a : GrantArgs} {env : GrantEnv}

end Calls

end Ummu
