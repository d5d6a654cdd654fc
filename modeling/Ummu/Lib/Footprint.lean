import Mathlib

/-!
# Footprints

An operation that owns the ids of `F` among those in use leaves the ids of `F'` in its place: it
may give up some of `F` and take ids that were not in use, and it touches nothing else.
-/

namespace Ummu.Lib

variable {ι : Type*}

/-- Of the ids `B` in use, the ones of `F` are replaced by those of `F'`. -/
structure Own (B F B' F' : Set ι) : Prop where
  sub : F ⊆ B
  eq : B' = (B \ F) ∪ F'
  fresh : B ∩ F' ⊆ F

namespace Own

variable {B F B' F' B'' F'' R : Set ι}

lemma refl (h : F ⊆ B) : Own B F B F :=
  ⟨h, (Set.sdiff_union_of_subset h).symm, Set.inter_subset_right⟩

lemma sub_after (h : Own B F B' F') : F' ⊆ B' := h.eq ▸ Set.subset_union_right

lemma keeps (h : Own B F B' F') {x : ι} (hx : x ∈ B) (hF : x ∉ F) : x ∈ B' ∧ x ∉ F' :=
  ⟨h.eq ▸ Or.inl ⟨hx, hF⟩, fun hF' => hF (h.fresh ⟨hx, hF'⟩)⟩

theorem trans (h : Own B F B' F') (h' : Own B' F' B'' F'') : Own B F B'' F'' := by
  refine ⟨h.sub, ?_, ?_⟩
  · rw [h'.eq]
    ext x
    constructor
    · rintro (⟨hx, hF'⟩ | hx)
      · rw [h.eq] at hx
        rcases hx with hx | hx
        · exact Or.inl hx
        · exact (hF' hx).elim
      · exact Or.inr hx
    · rintro (hx | hx)
      · exact Or.inl (h.keeps hx.1 hx.2)
      · exact Or.inr hx
  · rintro x ⟨hB, hF''⟩
    by_contra hF
    obtain ⟨h1, h2⟩ := h.keeps hB hF
    exact h2 (h'.fresh ⟨h1, hF''⟩)

/-- Ids that the operation does not own may be counted in. -/
theorem frame (h : Own B F B' F') (hR : R ⊆ B) (hd : Disjoint F R) :
    Own B (F ∪ R) B' (F' ∪ R) := by
  refine ⟨Set.union_subset h.sub hR, ?_, ?_⟩
  · rw [h.eq]
    ext x
    constructor
    · rintro (⟨hx, hF⟩ | hx)
      · by_cases hxR : x ∈ R
        · exact Or.inr (Or.inr hxR)
        · exact Or.inl ⟨hx, fun h => h.elim hF hxR⟩
      · exact Or.inr (Or.inl hx)
    · rintro (⟨hx, hFR⟩ | hx | hx)
      · exact Or.inl ⟨hx, fun h => hFR (Or.inl h)⟩
      · exact Or.inr hx
      · exact Or.inl ⟨hR hx, fun hF => Set.disjoint_left.mp hd hF hx⟩
  · rintro x ⟨hB, hF' | hx⟩
    · exact Or.inl (h.fresh ⟨hB, hF'⟩)
    · exact Or.inr hx

/-- Ids in use outside of the footprint do not come up in the new one. -/
lemma disjoint (h : Own B F B' F') (hR : R ⊆ B) (hd : Disjoint F R) : Disjoint F' R :=
  Set.disjoint_left.mpr (fun _ hF' hxR =>
    Set.disjoint_left.mp hd (h.fresh ⟨hR hxR, hF'⟩) hxR)

end Own

end Ummu.Lib
