import Ummu.Lib.LeaseStore
import Ummu.Modes

/-!
# Segments as leases

A tid leases address ranges: a granted segment lets in the bearers of its tokens, or everyone if it
has no token check. What the checks of `ummu_seg_mng.c` let through is what a store of leases
grants, in table mode and in entry mode.
-/

namespace Ummu

open Lib LeaseStore

def Range.cells (r : Range) : Set Nat := Set.Icc r.left r.right

/-- The attributes are the permission and the `e_bit`. -/
abbrev PermLease := Lease (Nat × Nat) (BitVec 32)

abbrev PermStore := LeaseStore Range.cells ummuMaxTokenNum (Nat × Nat) (BitVec 32)

abbrev PermRequest := Request Range (Nat × Nat) (BitVec 32)

/-- The live tokens of two slots; a single one is in both. -/
def slotTokens (tokenCheck : Bool) (count : Nat) (tokenVal0 tokenVal1 : BitVec 32) :
    Option (Multiset (BitVec 32)) :=
  if tokenCheck then some (if count = 1 then {tokenVal0} else {tokenVal0, tokenVal1}) else none

def SegInfo.lease (s : SegInfo) : PermLease where
  attrs := (s.permission.toNat, s.eBit.toNat)
  tokens := slotTokens s.tokenCheck s.tokenCount.toNat s.tokenVal0 s.tokenVal1

def TableNode.lease (n : TableNode) : PermLease where
  attrs := (n.permission.toNat, n.eBit.toNat)
  tokens := slotTokens n.tokenCheck n.nonce.toNat n.tokenVal0 n.tokenVal1

def EntryNode.lease (n : EntryNode) : PermLease where
  attrs := (n.permission.toNat, n.eBit.toNat)
  tokens := slotTokens n.tokenCheck n.nonce.toNat n.tokenVal0 n.tokenVal1

namespace DataInfo

def key (d : DataInfo) : Range := ⟨d.dataBase, d.dataLimit⟩

def attrs (d : DataInfo) : Nat × Nat := (d.perm.toNat, d.eBit.toNat)

def token (d : DataInfo) : Option (BitVec 32) := if d.tokenCheck then some d.tokenVal else none

def grantRequest (d : DataInfo) : PermRequest := .grant d.key d.attrs d.token

def ungrantRequest (d : DataInfo) : PermRequest :=
  if d.bytoken then .revokeToken d.key d.tokenVal else .revoke d.key

end DataInfo

/-- What a call asks of the store; a grant that fails its argument checks asks nothing. -/
def ApiCall.request (mode : MaptMode) : ApiCall → Option PermRequest
  | .grant a env => a.segAttr.bind (fun seg =>
      if ummuCheckData a.data a.dataSize a.perm seg.eBit mode = false then none
      else (ummuPermDataPreproc a seg env.random).map DataInfo.grantRequest)
  | .ungrant data size => some (ungrantDataInfo data size 0 false).ungrantRequest
  | .ungrantByToken data size tokenVal =>
    some (ungrantDataInfo data size tokenVal true).ungrantRequest

/-- The leases of a range table. -/
def Held (t : RangeTable) (k : Range) (l : PermLease) : Prop := ∃ s, (k, s) ∈ t ∧ s.lease = l

/-- The store holds the leases of the range table. -/
def Stands (S : PermStore) (t : RangeTable) : Prop := ∀ k l, S.lease k = some l ↔ Held t k l

/-- A range table whose leases make up a store. -/
structure Leased (t : RangeTable) : Prop where
  apart : Apart t
  tokens : ∀ e ∈ t, e.2.TokensOk

/-- The two tables differ in the record of one key, which the second has as in `o`. -/
def KeyChanged (t t' : RangeTable) (k : Range) (o : Option SegInfo) : Prop :=
  ∀ f, f ∈ t' ↔ (f.1 = k ∧ o = some f.2) ∨ (f.1 ≠ k ∧ f ∈ t)

section Records

variable {s : SegInfo} {d : DataInfo}

lemma newSegInfo_lease (d : DataInfo) :
    (newSegInfo d).lease = ⟨d.attrs, d.token.map singleton⟩ := by
  unfold newSegInfo SegInfo.lease slotTokens DataInfo.attrs DataInfo.token
  by_cases htc : d.tokenCheck = true
  · simp [htc]
  · simp [htc]

/-- The tokens of a record with a token check. -/
lemma SegInfo.TokensOk.lease (h : s.TokensOk) {a : Nat × Nat} {ts : Multiset (BitVec 32)}
    (hl : s.lease = ⟨a, some ts⟩) :
    s.tokenCheck = true ∧ (s.permission.toNat, s.eBit.toNat) = a ∧
      ((s.tokenCount = 1 ∧ s.tokenVal0 = s.tokenVal1 ∧ ts = {s.tokenVal0}) ∨
        (s.tokenCount = 2 ∧ ts = {s.tokenVal0, s.tokenVal1})) := by
  obtain ⟨ha, hts⟩ := Lease.mk.inj hl
  unfold slotTokens at hts
  rcases h with ⟨htc, _⟩ | ⟨htc, hcount, hval⟩ | ⟨htc, hcount⟩
  · rw [htc] at hts
    cases hts
  · rw [htc, hcount] at hts
    exact ⟨htc, ha, Or.inl ⟨hcount, hval, (Option.some.inj hts).symm⟩⟩
  · rw [htc, hcount] at hts
    exact ⟨htc, ha, Or.inr ⟨hcount, (Option.some.inj hts).symm⟩⟩

lemma lease_one (htc : s.tokenCheck = true) (hcount : s.tokenCount = 1) :
    s.lease = ⟨(s.permission.toNat, s.eBit.toNat), some {s.tokenVal0}⟩ := by
  unfold SegInfo.lease slotTokens
  rw [htc, hcount]
  rfl

lemma lease_two (htc : s.tokenCheck = true) (hcount : s.tokenCount = 2) :
    s.lease = ⟨(s.permission.toNat, s.eBit.toNat), some {s.tokenVal0, s.tokenVal1}⟩ := by
  unfold SegInfo.lease slotTokens
  rw [htc, hcount]
  rfl

lemma lease_addToken (htc : s.tokenCheck = true) (d : DataInfo) :
    (tokenRecord { d with op := .addToken } s).lease =
      ⟨(s.permission.toNat, s.eBit.toNat), some (d.tokenVal ::ₘ {s.tokenVal0})⟩ := by
  rw [tokenRecord_add rfl, ← Multiset.insert_eq_cons, Multiset.pair_comm]
  exact lease_two htc rfl

lemma lease_removeToken (htc : s.tokenCheck = true)
    (hval : s.tokenVal0 = d.tokenVal ∨ s.tokenVal1 = d.tokenVal) :
    (tokenRecord { d with op := .removeToken } s).lease = ⟨(s.permission.toNat, s.eBit.toNat),
      some (({s.tokenVal0, s.tokenVal1} : Multiset (BitVec 32)).erase d.tokenVal)⟩ := by
  rw [tokenRecord, if_pos rfl, ummuRemoveTokenval]
  by_cases hfirst : s.tokenVal0 = d.tokenVal
  · rw [if_pos hfirst, hfirst, Multiset.insert_eq_cons, Multiset.erase_cons_head]
    exact lease_one htc rfl
  · have hsecond := hval.resolve_left hfirst
    rw [if_neg hfirst, if_pos hsecond, hsecond, Multiset.pair_comm, Multiset.insert_eq_cons,
      Multiset.erase_cons_head]
    exact lease_one htc rfl

/-- `UMMU_ADD_TOKEN` adds the token of the call to the single one of the record. -/
lemma paramCheck_addToken (h : ummuTableParamCheck s d = .addToken) :
    d.token = some d.tokenVal ∧ ∃ v, s.lease = ⟨d.attrs, some {v}⟩ ∧
      (tokenRecord { d with op := .addToken } s).lease = ⟨d.attrs, some (d.tokenVal ::ₘ {v})⟩ := by
  unfold ummuTableParamCheck at h
  by_cases hc : (s.tokenCheck = true ∧ d.tokenCheck = true) ∧ s.permission = d.perm ∧
      s.eBit = d.eBit ∧ s.tokenCount = 1
  · obtain ⟨⟨htc, hd⟩, hperm, hebit, hcount⟩ := hc
    have hattrs : (s.permission.toNat, s.eBit.toNat) = d.attrs := by
      rw [hperm, hebit]
      rfl
    exact ⟨if_pos hd, s.tokenVal0, by rw [lease_one htc hcount, hattrs],
      by rw [lease_addToken htc, hattrs]⟩
  · rw [if_neg hc] at h
    cases h

/-- A recorded segment takes no token that the check turns down. -/
lemma paramCheck_opEnd (hok : s.TokensOk) (h : ummuTableParamCheck s d = .opEnd)
    (htoken : d.token.isSome) {ts : Multiset (BitVec 32)} (hl : s.lease = ⟨d.attrs, some ts⟩) :
    ummuMaxTokenNum ≤ ts.card := by
  obtain ⟨htc, hattrs, ⟨hcount, _, _⟩ | ⟨_, rfl⟩⟩ := hok.lease hl
  · have hd : d.tokenCheck = true := by
      by_contra hne
      rw [DataInfo.token, if_neg hne] at htoken
      cases htoken
    obtain ⟨hperm, hebit⟩ := Prod.mk.inj hattrs
    rw [ummuTableParamCheck, if_pos ⟨⟨htc, hd⟩, BitVec.eq_of_toNat_eq hperm,
      BitVec.eq_of_toNat_eq hebit, hcount⟩] at h
    cases h
  · rfl

/-- The three answers of the check of an ungrant. -/
lemma ungrantParamCheck_lease (hok : s.TokensOk) :
    (ummuUngrantParamCheck s d = .ungrant ∧
      (d.bytoken = true → ∃ a, s.lease = ⟨a, some {d.tokenVal}⟩)) ∨
    (ummuUngrantParamCheck s d = .removeToken ∧ d.bytoken = true ∧ ∃ a ts,
      s.lease = ⟨a, some ts⟩ ∧ d.tokenVal ∈ ts ∧ 1 < ts.card ∧
      (tokenRecord { d with op := .removeToken } s).lease = ⟨a, some (ts.erase d.tokenVal)⟩) ∨
    (ummuUngrantParamCheck s d = .opEnd ∧ d.bytoken = true ∧
      ∀ a ts, s.lease = ⟨a, some ts⟩ → d.tokenVal ∉ ts) := by
  unfold ummuUngrantParamCheck
  by_cases hby : d.bytoken = false
  · rw [if_pos hby]
    exact Or.inl ⟨rfl, fun h => by rw [hby] at h; cases h⟩
  rw [if_neg hby]
  rw [Bool.not_eq_false] at hby
  by_cases htc : s.tokenCheck = false
  · rw [if_pos htc]
    refine Or.inr (Or.inr ⟨rfl, hby, fun a ts hl => ?_⟩)
    have := (hok.lease hl).1
    rw [htc] at this
    cases this
  rw [if_neg htc]
  rw [Bool.not_eq_false] at htc
  by_cases hval : s.tokenVal0 = d.tokenVal ∨ s.tokenVal1 = d.tokenVal
  · rw [if_pos hval]
    rcases hok with ⟨htc', _⟩ | ⟨_, hcount, hsame⟩ | ⟨_, hcount⟩
    · rw [htc] at htc'
      cases htc'
    · rw [if_pos hcount]
      have hv : s.tokenVal0 = d.tokenVal := hval.elim id (hsame.trans ·)
      exact Or.inl ⟨rfl, fun _ => ⟨_, hv ▸ lease_one htc hcount⟩⟩
    · have hone : ¬s.tokenCount = 1 := by
        rw [hcount]
        decide
      have hmax : s.tokenCount = BitVec.ofNat 8 ummuMaxTokenNum := hcount
      rw [if_neg hone, if_pos hmax]
      refine Or.inr (Or.inl ⟨rfl, hby, _, _, lease_two htc hcount, ?_, ?_,
        lease_removeToken htc hval⟩)
      · apply hval.elim <;> intro hv <;> simp [hv]
      · exact Nat.lt_succ_self 1
  · rw [if_neg hval]
    push Not at hval
    refine Or.inr (Or.inr ⟨rfl, hby, fun a ts hl => ?_⟩)
    rcases (hok.lease hl).2.2 with ⟨_, _, rfl⟩ | ⟨_, rfl⟩
    · simpa using Ne.symm hval.1
    · simpa using ⟨Ne.symm hval.1, Ne.symm hval.2⟩

end Records

section Steps

variable {S S' : PermStore} {t t' : RangeTable} {k : Range} {s : SegInfo} {d : DataInfo}
  {o : Option SegInfo}

/-- The leases of a range table make up a store. -/
lemma Leased.isStore (h : Leased t) : IsStore Range.cells ummuMaxTokenNum (Held t) := by
  refine ⟨?_, ?_, ?_⟩
  · rintro k l l' ⟨s, hs, rfl⟩ ⟨s', hs', rfl⟩
    have hle := h.apart.le _ hs
    have heq := h.apart.unique hs hs' hle hle
    rw [(Prod.mk.inj heq).2]
  · rintro k k' l l' ⟨s, hs, rfl⟩ ⟨s', hs', rfl⟩ hne
    rw [Set.disjoint_left]
    intro x hx hx'
    have heq := h.apart.unique hs hs' (le_trans hx.1 hx'.2) (le_trans hx'.1 hx.2)
    exact hne (Prod.mk.inj heq).1.symm
  · rintro k l ts ⟨s, hs, rfl⟩ hl
    obtain ⟨_, _, ⟨_, _, rfl⟩ | ⟨_, rfl⟩⟩ := (h.tokens _ hs).lease (Lease.ext rfl hl)
    · exact ⟨Nat.one_pos, le_of_lt Nat.one_lt_two⟩
    · exact ⟨Nat.two_pos, le_refl _⟩

lemma Stands.unique (h : Stands S t) (h' : Stands S' t) : S' = S := by
  ext k l
  rw [h' k l, h k l]

lemma KeyChanged.leases (h : KeyChanged t t' k o) :
    Changed (Held t) (Held t') k (o.map SegInfo.lease) := by
  intro k' l
  constructor
  · rintro ⟨s, hs, rfl⟩
    exact ((h _).mp hs).imp (fun hs => ⟨hs.1, by rw [hs.2]; rfl⟩) (fun hs => ⟨hs.1, s, hs.2, rfl⟩)
  · rintro (⟨rfl, hl⟩ | ⟨hne, s, hs, rfl⟩)
    · obtain ⟨s, rfl, rfl⟩ := Option.map_eq_some_iff.mp hl
      exact ⟨s, (h _).mpr (Or.inl ⟨rfl, rfl⟩), rfl⟩
    · exact ⟨s, (h _).mpr (Or.inr ⟨hne, hs⟩), rfl⟩

lemma KeyChanged.update (h : KeyChanged t t' k o) (hS : Stands S t) (hS' : Stands S' t') :
    S'.lease = Function.update S.lease k (o.map SegInfo.lease) :=
  h.leases.update hS hS'

lemma Stands.lease (h : Stands S t) (hs : (k, s) ∈ t) : S.lease k = some s.lease :=
  (h _ _).mpr ⟨s, hs, rfl⟩

lemma Stands.free (h : Stands S t)
    (hfree : ∀ f ∈ t, f.1.right < d.dataBase ∨ d.dataLimit < f.1.left) : S.Free d.key := by
  intro k' hk'
  obtain ⟨l, hl⟩ := Option.isSome_iff_exists.mp hk'
  obtain ⟨s', hs', _⟩ := (h _ _).mp hl
  rw [Set.disjoint_left]
  intro x hx hx'
  rcases hfree _ hs' with hlt | hlt
  · exact absurd (lt_of_le_of_lt hx'.2 hlt) (not_lt.mpr hx.1)
  · exact absurd (lt_of_le_of_lt hx.2 hlt) (not_lt.mpr hx'.1)

lemma Stands.held (h : Stands S t) (hsome : t ≠ []) : ∃ k, (S.lease k).isSome := by
  obtain ⟨⟨k, s⟩, hs⟩ := List.exists_mem_of_ne_nil t hsome
  exact ⟨k, by rw [h.lease hs]; rfl⟩

/-- A free range is leased out. -/
lemma step_granted (hS : Stands S t) (hS' : Stands S' t')
    (hfree : ∀ f ∈ t, f.1.right < d.dataBase ∨ d.dataLimit < f.1.left)
    (hs : s.lease = (newSegInfo d).lease) (h : KeyChanged t t' d.key (some s)) :
    S.Step d.grantRequest true S' := by
  apply Step.granted (hS.free hfree)
  rw [h.update hS hS', Option.map_some, hs, newSegInfo_lease]

/-- A grant of a leased range with the same attributes adds its token. -/
lemma step_addToken (hS : Stands S t) (hS' : Stands S' t') (hs : (d.key, s) ∈ t)
    (hcheck : ummuTableParamCheck s d = .addToken)
    (h : KeyChanged t t' d.key (some (tokenRecord { d with op := .addToken } s))) :
    S.Step d.grantRequest true S' := by
  obtain ⟨htoken, v, hl, hl'⟩ := paramCheck_addToken hcheck
  rw [DataInfo.grantRequest, htoken]
  apply Step.tokenAdded
  · rw [hS.lease hs, hl]
  · exact Nat.one_lt_two
  · rw [h.update hS hS', Option.map_some, hl']

/-- A grant that the check turns down is refused for want of room, or for a lease in its way. -/
lemma step_refused (hS : Stands S t) (ht : Leased t) (hsome : t ≠ [])
    (h : ∀ s, (d.key, s) ∈ t → ummuTableParamCheck s d = .opEnd) :
    S.Step d.grantRequest false S := by
  by_cases hfree : S.Free d.key
  · exact .noRoom hfree (hS.held hsome)
  · apply Step.grantRefused hfree
    intro htoken ts hl
    obtain ⟨s, hs, hl⟩ := (hS _ _).mp hl
    exact paramCheck_opEnd (ht.tokens _ hs) (h s hs) htoken hl

/-- `UMMU_UNGRANT` ends a lease, by its last token or at once. -/
lemma step_ungrant (hS : Stands S t) (hS' : Stands S' t') (ht : Leased t) (hs : (d.key, s) ∈ t)
    (hcheck : ummuUngrantParamCheck s d = .ungrant) (h : KeyChanged t t' d.key none) :
    S.Step d.ungrantRequest true S' := by
  have hup := h.update hS hS'
  rcases ungrantParamCheck_lease (d := d) (ht.tokens _ hs) with ⟨_, hl⟩ | ⟨hop, _⟩ | ⟨hop, _⟩
  · unfold DataInfo.ungrantRequest
    by_cases hby : d.bytoken = true
    · obtain ⟨a, hl⟩ := hl hby
      rw [if_pos hby]
      exact .lastToken ((hS.lease hs).trans (congrArg some hl)) hup
    · rw [if_neg hby]
      exact .revoked (hS.lease hs) hup
  · rw [hcheck] at hop
    cases hop
  · rw [hcheck] at hop
    cases hop

/-- `UMMU_REMOVE_TOKEN` takes one token of a lease. -/
lemma step_removeToken (hS : Stands S t) (hS' : Stands S' t') (ht : Leased t)
    (hs : (d.key, s) ∈ t) (hcheck : ummuUngrantParamCheck s d = .removeToken)
    (h : KeyChanged t t' d.key (some (tokenRecord { d with op := .removeToken } s))) :
    S.Step d.ungrantRequest true S' := by
  have hup := h.update hS hS'
  rcases ungrantParamCheck_lease (d := d) (ht.tokens _ hs) with
    ⟨hop, _⟩ | ⟨_, hby, a, ts, hl, hmem, hcard, hl'⟩ | ⟨hop, _⟩
  · rw [hcheck] at hop
    cases hop
  · rw [DataInfo.ungrantRequest, if_pos hby]
    rw [Option.map_some, hl'] at hup
    exact .tokenRemoved ((hS.lease hs).trans (congrArg some hl)) hmem hcard hup
  · rw [hcheck] at hop
    cases hop

/-- An ungrant that the check turns down names no lease, or a token that is not live. -/
lemma step_missed (hS : Stands S t) (ht : Leased t)
    (h : ∀ s, (d.key, s) ∈ t → ummuUngrantParamCheck s d = .opEnd) :
    S.Step d.ungrantRequest false S := by
  have hout : ∀ s, (d.key, s) ∈ t → d.bytoken = true ∧
      ∀ a ts, s.lease = ⟨a, some ts⟩ → d.tokenVal ∉ ts := by
    intro s hs
    rcases ungrantParamCheck_lease (d := d) (ht.tokens _ hs) with ⟨hop, _⟩ | ⟨hop, _⟩ | ⟨_, hl⟩
    · rw [h s hs] at hop
      cases hop
    · rw [h s hs] at hop
      cases hop
    · exact hl
  unfold DataInfo.ungrantRequest
  by_cases hby : d.bytoken = true
  · rw [if_pos hby]
    apply Step.tokenRefused
    intro a ts hl
    obtain ⟨s, hs, hl⟩ := (hS _ _).mp hl
    exact (hout s hs).2 a ts hl
  · rw [if_neg hby]
    apply Step.revokeRefused
    rw [Option.eq_none_iff_forall_not_mem]
    intro l hl
    obtain ⟨s, hs, _⟩ := (hS _ _).mp hl
    exact hby (hout s hs).1

end Steps

end Ummu
