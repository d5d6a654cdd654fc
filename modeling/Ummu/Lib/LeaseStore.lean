import Mathlib

/-!
# Leases with tokens

A key stands for a set of cells. A store holds leases on keys that share no cell; a lease lets in
everyone, or the bearers of one of its tokens. Tokens come and go one by one, each time at most `n`
of them are live, and a lease goes with its last token.
-/

namespace Ummu.Lib

/-- What is leased, and the tokens that are accepted; without tokens everyone is let in. -/
@[ext] structure Lease (A τ : Type*) where
  attrs : A
  tokens : Option (Multiset τ)

@[ext] structure LeaseStore {K X : Type*} (cells : K → Set X) (n : ℕ) (A τ : Type*) where
  lease : K → Option (Lease A τ)
  apart : ∀ k k', (lease k).isSome → (lease k').isSome → k ≠ k' → Disjoint (cells k) (cells k')
  card : ∀ k l ts, lease k = some l → l.tokens = some ts → 0 < ts.card ∧ ts.card ≤ n

inductive Request (K A τ : Type*) where
  | grant (k : K) (a : A) (token : Option τ)
  | revoke (k : K)
  | revokeToken (k : K) (t : τ)

namespace LeaseStore

section Leases

variable {K X A τ : Type*} {cells : K → Set X} {n : ℕ}

def empty (cells : K → Set X) (n : ℕ) (A τ : Type*) : LeaseStore cells n A τ where
  lease _ := none
  apart _ _ h := by cases h
  card _ _ _ h := by cases h

/-- No lease is held on a cell of the key. -/
def Free (S : LeaseStore cells n A τ) (k : K) : Prop :=
  ∀ k', (S.lease k').isSome → Disjoint (cells k) (cells k')

/-- The lease that is held on a cell. -/
def At (S : LeaseStore cells n A τ) (x : X) (l : Lease A τ) : Prop :=
  ∃ k, x ∈ cells k ∧ S.lease k = some l

variable {S S' : LeaseStore cells n A τ} {k : K} {x : X} {l l' : Lease A τ}

/-- Leases that can make up a store. -/
structure IsStore (cells : K → Set X) (n : ℕ) (P : K → Lease A τ → Prop) : Prop where
  unique : ∀ k l l', P k l → P k l' → l = l'
  apart : ∀ k k' l l', P k l → P k' l' → k ≠ k' → Disjoint (cells k) (cells k')
  card : ∀ k l ts, P k l → l.tokens = some ts → 0 < ts.card ∧ ts.card ≤ n

/-- The store that holds exactly the given leases. -/
theorem IsStore.store {P : K → Lease A τ → Prop} (h : IsStore cells n P) :
    ∃ S : LeaseStore cells n A τ, ∀ k l, S.lease k = some l ↔ P k l := by
  classical
  obtain ⟨lease, hlease⟩ : ∃ lease : K → Option (Lease A τ), ∀ k l, lease k = some l ↔ P k l := by
    refine ⟨fun k => if hk : ∃ l, P k l then some hk.choose else none, fun k l => ?_⟩
    beta_reduce
    by_cases hk : ∃ l, P k l
    · rw [dif_pos hk, Option.some_inj]
      constructor
      · rintro rfl
        exact hk.choose_spec
      · exact h.unique k _ _ hk.choose_spec
    · rw [dif_neg hk]
      exact ⟨fun hl => (Option.some_ne_none l hl.symm).elim, fun hl => (hk ⟨l, hl⟩).elim⟩
  refine ⟨⟨lease, fun k k' hk hk' => ?_, fun k l ts hk => h.card k l ts ((hlease k l).mp hk)⟩,
    hlease⟩
  obtain ⟨l, hl⟩ := Option.isSome_iff_exists.mp hk
  obtain ⟨l', hl'⟩ := Option.isSome_iff_exists.mp hk'
  exact h.apart k k' l l' ((hlease k l).mp hl) ((hlease k' l').mp hl')

/-- The leases `P'` are the leases `P` but for the key `k`, which is leased as in `o`. -/
def Changed (P P' : K → Lease A τ → Prop) (k : K) (o : Option (Lease A τ)) : Prop :=
  ∀ k' l, P' k' l ↔ (k' = k ∧ o = some l) ∨ (k' ≠ k ∧ P k' l)

lemma Changed.update [DecidableEq K] {P P' : K → Lease A τ → Prop} {o : Option (Lease A τ)}
    (h : Changed P P' k o) (hS : ∀ k l, S.lease k = some l ↔ P k l)
    (hS' : ∀ k l, S'.lease k = some l ↔ P' k l) : S'.lease = Function.update S.lease k o := by
  funext k'
  ext l
  rw [hS', h]
  by_cases hne : k' = k
  · subst hne
    rw [Function.update_self]
    simp
  · rw [Function.update_of_ne hne, hS]
    simp [hne]

end Leases

section Requests

variable {K X A τ : Type*} [DecidableEq K] [DecidableEq τ] {cells : K → Set X} {n : ℕ}

/-- The requests and whether they are granted. A request may be turned down for want of room, but
only while some lease is held. -/
inductive Step (S : LeaseStore cells n A τ) :
    Request K A τ → Bool → LeaseStore cells n A τ → Prop where
  | granted {k : K} {a : A} {token : Option τ} {S' : LeaseStore cells n A τ} (hfree : S.Free k)
      (h : S'.lease = Function.update S.lease k (some ⟨a, token.map singleton⟩)) :
      Step S (.grant k a token) true S'
  | noRoom {k : K} {a : A} {token : Option τ} (hfree : S.Free k)
      (hheld : ∃ k, (S.lease k).isSome) : Step S (.grant k a token) false S
  | tokenAdded {k : K} {a : A} {t : τ} {ts : Multiset τ} {S' : LeaseStore cells n A τ}
      (hk : S.lease k = some ⟨a, some ts⟩) (hcard : ts.card < n)
      (h : S'.lease = Function.update S.lease k (some ⟨a, some (t ::ₘ ts)⟩)) :
      Step S (.grant k a (some t)) true S'
  | grantRefused {k : K} {a : A} {token : Option τ} (hfree : ¬S.Free k)
      (hfull : token.isSome → ∀ ts, S.lease k = some ⟨a, some ts⟩ → n ≤ ts.card) :
      Step S (.grant k a token) false S
  | revoked {k : K} {l : Lease A τ} {S' : LeaseStore cells n A τ} (hk : S.lease k = some l)
      (h : S'.lease = Function.update S.lease k none) : Step S (.revoke k) true S'
  | revokeRefused {k : K} (hk : S.lease k = none) : Step S (.revoke k) false S
  | tokenRemoved {k : K} {a : A} {t : τ} {ts : Multiset τ} {S' : LeaseStore cells n A τ}
      (hk : S.lease k = some ⟨a, some ts⟩) (ht : t ∈ ts) (hcard : 1 < ts.card)
      (h : S'.lease = Function.update S.lease k (some ⟨a, some (ts.erase t)⟩)) :
      Step S (.revokeToken k t) true S'
  | lastToken {k : K} {a : A} {t : τ} {S' : LeaseStore cells n A τ}
      (hk : S.lease k = some ⟨a, some {t}⟩) (h : S'.lease = Function.update S.lease k none) :
      Step S (.revokeToken k t) true S'
  | tokenRefused {k : K} {t : τ} (hk : ∀ a ts, S.lease k = some ⟨a, some ts⟩ → t ∉ ts) :
      Step S (.revokeToken k t) false S

/-- Requests one after another, each with whether it was granted. -/
inductive Runs : LeaseStore cells n A τ → List (Request K A τ × Bool) → LeaseStore cells n A τ →
    Prop where
  | nil (S : LeaseStore cells n A τ) : Runs S [] S
  | cons {S S' S'' : LeaseStore cells n A τ} {r : Request K A τ} {b : Bool}
      {log : List (Request K A τ × Bool)} (h : Step S r b S') (hs : Runs S' log S'') :
      Runs S ((r, b) :: log) S''

variable {S S' : LeaseStore cells n A τ} {k : K} {x : X} {a : A} {t : τ} {r : Request K A τ}
  {b : Bool} {log : List (Request K A τ × Bool)}

lemma Runs.append {S S' S'' : LeaseStore cells n A τ} {log log' : List (Request K A τ × Bool)}
    (h : Runs S log S') (h' : Runs S' log' S'') : Runs S (log ++ log') S'' := by
  induction h with
  | nil S => exact h'
  | cons hs _ ih => exact .cons hs (ih h')

end Requests

end LeaseStore

end Ummu.Lib
