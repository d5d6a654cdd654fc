import Mathlib

/-!
# Ledgers

What a sequence of takings and returns does to the set of what is held, where nothing is taken
while it is held and nothing is given back that is not.
-/

namespace Ummu.Lib

/-- A thing is taken or given back. -/
inductive LedgerOp (α : Type*) where
  | take (a : α)
  | give (a : α)

/-- What the operation is about. -/
def LedgerOp.item {α : Type*} : LedgerOp α → α
  | .take a => a
  | .give a => a

def LedgerOp.map {α β : Type*} (f : α → β) : LedgerOp α → LedgerOp β
  | .take a => .take (f a)
  | .give a => .give (f a)

/-- From `H`, the operations are all in order, and they end with `H'`. -/
inductive Ledger {α : Type*} : Set α → List (LedgerOp α) → Set α → Prop where
  | nil {H : Set α} : Ledger H [] H
  | take {H H' : Set α} {a : α} {ops : List (LedgerOp α)} (ha : a ∉ H)
      (h : Ledger (insert a H) ops H') : Ledger H (.take a :: ops) H'
  | give {H H' : Set α} {a : α} {ops : List (LedgerOp α)} (ha : a ∈ H)
      (h : Ledger (H \ {a}) ops H') : Ledger H (.give a :: ops) H'

namespace Ledger

variable {α : Type*} {H H' H'' : Set α} {a : α} {ops ops' : List (LedgerOp α)}

lemma append (h : Ledger H ops H') (h' : Ledger H' ops' H'') : Ledger H (ops ++ ops') H'' := by
  induction h with
  | nil => exact h'
  | take ha _ ih => exact .take ha (ih h')
  | give ha _ ih => exact .give ha (ih h')

lemma one_take (ha : a ∉ H) : Ledger H [.take a] (insert a H) := .take ha .nil

lemma one_give (ha : a ∈ H) : Ledger H [.give a] (H \ {a}) := .give ha .nil

lemma one_give_insert (ha : a ∉ H) : Ledger (insert a H) [.give a] H := by
  have h := one_give (Set.mem_insert a H)
  rwa [Set.insert_sdiff_of_mem _ (Set.mem_singleton a), Set.sdiff_singleton_eq_self ha] at h

/-- What is taken first and given back last does not show. -/
lemma bracket (ha : a ∉ H) (h : Ledger (insert a H) ops (insert a H)) :
    Ledger H (.take a :: ops ++ [.give a]) H := by
  have hback := h.append (one_give (Set.mem_insert a H))
  rw [Set.insert_sdiff_of_mem _ (Set.mem_singleton a), Set.sdiff_singleton_eq_self ha] at hback
  exact .take ha hback

/-- What the operations do not name may be held throughout. -/
lemma frame {K : Set α} (h : Ledger H ops H') (hK : ∀ op ∈ ops, op.item ∉ K) :
    Ledger (K ∪ H) ops (K ∪ H') := by
  induction h with
  | nil => exact .nil
  | @take H H' a ops ha _ ih =>
    obtain ⟨haK, hrest⟩ := List.forall_mem_cons.mp hK
    refine .take (fun hmem => hmem.elim haK ha) ?_
    rw [← Set.union_insert]
    exact ih hrest
  | @give H H' a ops ha _ ih =>
    obtain ⟨haK, hrest⟩ := List.forall_mem_cons.mp hK
    have hK' : a ∉ K := haK
    refine .give (Or.inr ha) ?_
    rw [Set.union_sdiff_distrib, Set.sdiff_singleton_eq_self hK']
    exact ih hrest

/-- The end is fixed by the start. -/
lemma unique (h : Ledger H ops H') (h' : Ledger H ops H'') : H' = H'' := by
  induction h with
  | nil =>
    cases h'
    rfl
  | take _ _ ih =>
    cases h' with
    | take _ h' => exact ih h'
  | give _ _ ih =>
    cases h' with
    | give _ h' => exact ih h'

section Owners

variable {β ι : Type*} {f : α → β} {S S' : Set β}

/-- Operations on the things that carry a name; the others stay. -/
theorem lift (hf : Function.Injective f)
    (h : Ledger (Set.preimage f S) ops (Set.preimage f S'))
    (hout : ∀ b, b ∉ Set.range f → (b ∈ S ↔ b ∈ S')) :
    Ledger S (ops.map (LedgerOp.map f)) S' := by
  generalize hH : Set.preimage f S = H at h
  generalize hH' : Set.preimage f S' = H' at h
  induction h generalizing S with
  | nil =>
    have hsame : S = S' := by
      ext b
      by_cases hb : b ∈ Set.range f
      · obtain ⟨a, rfl⟩ := hb
        have hmem := Set.ext_iff.mp (hH.trans hH'.symm) a
        exact hmem
      · exact hout b hb
    rw [hsame]
    exact .nil
  | @take H H' a ops ha _ ih =>
    subst hH
    refine .take ha (ih (fun b hb => ?_) ?_ hH')
    · rw [← hout b hb, Set.mem_insert_iff]
      exact or_iff_right (fun hba => hb ⟨a, hba.symm⟩)
    · ext x
      simp only [Set.mem_preimage, Set.mem_insert_iff, hf.eq_iff]
  | @give H H' a ops ha _ ih =>
    subst hH
    refine .give ha (ih (fun b hb => ?_) ?_ hH')
    · rw [← hout b hb, Set.mem_sdiff, Set.mem_singleton_iff]
      exact and_iff_left (fun hba => hb ⟨a, hba.symm⟩)
    · ext x
      simp only [Set.mem_preimage, Set.mem_sdiff, Set.mem_singleton_iff, hf.eq_iff]

/-- One owner after another does its operations. -/
theorem owners {f : ι → α → β} {ks : List ι} {ops : ι → List (LedgerOp α)} (hnodup : ks.Nodup)
    (hf : ∀ k ∈ ks, Function.Injective (f k))
    (hapart : ∀ k ∈ ks, ∀ j ∈ ks, ∀ a b, f k a = f j b → k = j)
    (h : ∀ k ∈ ks, Ledger (Set.preimage (f k) S) (ops k) (Set.preimage (f k) S'))
    (hout : ∀ b, (∀ k ∈ ks, b ∉ Set.range (f k)) → (b ∈ S ↔ b ∈ S')) :
    Ledger S (ks.flatMap (fun k => (ops k).map (LedgerOp.map (f k)))) S' := by
  induction ks generalizing S with
  | nil =>
    have hsame : S = S' := Set.ext fun b => hout b (fun k hk => by cases hk)
    rw [hsame]
    exact .nil
  | cons k ks ih =>
    obtain ⟨hk, hnodup⟩ := List.nodup_cons.mp hnodup
    -- the first owner is done, the others have not begun
    have hfirst : Ledger S ((ops k).map (LedgerOp.map (f k)))
        {b | (b ∈ Set.range (f k) ∧ b ∈ S') ∨ (b ∉ Set.range (f k) ∧ b ∈ S)} := by
      refine lift (hf k (List.mem_cons_self ..)) ?_ (fun b hb => ?_)
      · have hpart : Set.preimage (f k)
            {b | (b ∈ Set.range (f k) ∧ b ∈ S') ∨ (b ∉ Set.range (f k) ∧ b ∈ S)} =
            Set.preimage (f k) S' := by
          ext a
          simp
        rw [hpart]
        exact h k (List.mem_cons_self ..)
      · rw [Set.mem_ofPred_eq]
        simp only [hb, false_and, not_false_eq_true, true_and, false_or]
    refine hfirst.append (ih hnodup (fun j hj => hf j (List.mem_cons_of_mem _ hj))
      (fun i hi j hj => hapart i (List.mem_cons_of_mem _ hi) j (List.mem_cons_of_mem _ hj))
      (fun j hj => ?_) (fun b hb => ?_))
    · have hpart : Set.preimage (f j)
          {b | (b ∈ Set.range (f k) ∧ b ∈ S') ∨ (b ∉ Set.range (f k) ∧ b ∈ S)} =
          Set.preimage (f j) S := by
        ext a
        have hother : f j a ∉ Set.range (f k) := by
          rintro ⟨x, hx⟩
          have hkj := hapart k (List.mem_cons_self ..) j (List.mem_cons_of_mem _ hj) x a hx
          exact hk (hkj ▸ hj)
        rw [Set.mem_preimage, Set.mem_preimage, Set.mem_ofPred_eq]
        simp only [hother, false_and, not_false_eq_true, true_and, false_or]
      rw [hpart]
      exact h j (List.mem_cons_of_mem _ hj)
    · by_cases hbk : b ∈ Set.range (f k)
      · rw [Set.mem_ofPred_eq]
        simp only [hbk, true_and, not_true_eq_false, false_and, or_false]
      · rw [Set.mem_ofPred_eq]
        simp only [hbk, false_and, not_false_eq_true, true_and, false_or]
        refine hout b (fun j hj => ?_)
        rcases List.mem_cons.mp hj with rfl | hj
        · exact hbk
        · exact hb j hj

end Owners

end Ledger

end Ummu.Lib
