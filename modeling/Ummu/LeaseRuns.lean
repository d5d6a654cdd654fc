import Ummu.LeaseCalls

/-!
# Access over whole runs

What the device finds for an address of a tid is the lease that a store holds there which was asked
the same requests. So access comes with a grant, lasts until it is revoked, and does not come back
before the next grant.
-/

namespace Ummu

open Lib LeaseStore Machine Cell

/-- What the device finds for an address: the entry node if its range has it, or a node that it
reaches in the table. -/
def MaptInfo.At (info : MaptInfo) (x : Nat) (l : PermLease) : Prop :=
  match info.blockBase with
  | .entryBlock node => node.valid = true ∧ (node.base ≤ x ∧ x ≤ node.limit) ∧ node.lease = l
  | .tableCtx c _ => ∃ path q, c.reach rootPlace path = some q ∧ q.Covers c x ∧
      (c.node q.blk q.off).lease = l

/-- The request of a call, if it asks one, and whether the call succeeded. -/
def ApiCall.log (info : MaptInfo) (call : ApiCall) : List (PermRequest × Bool) :=
  ((call.request info.mode).map (fun r => (r, decide ((call.run info).ret = 0)))).toList

def MaptInfo.after (info : MaptInfo) : List ApiCall → MaptInfo
  | [] => info
  | call :: calls => (call.run info).info.after calls

def MaptInfo.log (info : MaptInfo) : List ApiCall → List (PermRequest × Bool)
  | [] => []
  | call :: calls => call.log info ++ (call.run info).info.log calls

/-- Mapped blocks come without valid nodes, and record allocations succeed. -/
def Served (y : Prop) (calls : List ApiCall) : Prop :=
  ∀ call ∈ calls, call.Fresh y ∧ call.RecordAlloc

/-- The tid satisfies its invariant, and the store holds its segments. -/
inductive TidStands (y : Prop) (info : MaptInfo) (S : PermStore) : Prop where
  | entry {node : EntryNode} (hb : info.blockBase = .entryBlock node) (hok : EntryOk node)
      (hS : Stands S node.segs)
  | table {c : TableCtx} {t : RangeTable} {sub : SegBlock 3}
      (hb : info.blockBase = .tableCtx c (some t)) (hinv : TableInv y c t sub) (hS : Stands S t)

section Runs

variable {y : Prop} {info : MaptInfo} {S : PermStore} {call : ApiCall} {calls : List ApiCall}
  {x : Nat} {l : PermLease} {a : Nat × Nat} {t : BitVec 32}

lemma Carries.lease {n : TableNode} {s : SegInfo} (h : Carries y n s) : n.lease = s.lease := by
  rw [TableNode.lease, SegInfo.lease, h.permission, h.eBit, h.tokenCheck]
  cases htc : s.tokenCheck with
  | false => rfl
  | true =>
    obtain ⟨h0, h1⟩ := h.tokens htc
    rw [h.nonce (Or.inl htc), h0, h1]

/-- What the device finds is what the store holds. -/
lemma TidStands.at_iff (h : TidStands y info S) : info.At x l ↔ S.At x l := by
  cases h with
  | @entry node hb hok hS =>
    rw [MaptInfo.At, hb]
    constructor
    · rintro ⟨hv, hx, rfl⟩
      exact ⟨node.key, hx, (hS _ _).mpr ⟨node.seg, segs_mem.mpr ⟨hv, rfl, rfl⟩, seg_lease⟩⟩
    · rintro ⟨k, hx, hl⟩
      obtain ⟨s, hs, rfl⟩ := (hS _ _).mp hl
      obtain ⟨hv, rfl, rfl⟩ := segs_mem.mp hs
      exact ⟨hv, hx, seg_lease.symm⟩
  | @table c t sub hb hinv hS =>
    rw [MaptInfo.At, hb]
    have hrefines := hinv.refines
    constructor
    · rintro ⟨path, q, hq, hx, rfl⟩
      obtain ⟨e, he, h1, _, h2, hcarries⟩ := hrefines.within path q hq hx.1
      exact ⟨e.1, ⟨le_trans h1 hx.2.1, le_trans hx.2.2 h2⟩,
        (hS _ _).mpr ⟨e.2, he, hcarries.lease.symm⟩⟩
    · rintro ⟨k, hx, hl⟩
      obtain ⟨s, hs, rfl⟩ := (hS _ _).mp hl
      obtain ⟨path, q, hq, hcov, hcarries⟩ := hrefines.tiled _ hs x hx.1 hx.2
      exact ⟨path, q, hq, hcov, hcarries.lease⟩

/-- A grant that fails its argument checks leaves the tid. -/
lemma TidStands.no_request (h : TidStands y info S) (hreq : call.request info.mode = none) :
    (call.run info).info = info := by
  cases h with
  | @entry node hb hok hS =>
    have hmode : info.mode = .entry := by rw [MaptInfo.mode, hb]
    rw [hmode] at hreq
    have hruns := run_entryRunsAs hb call
    generalize call.run info = res at hruns ⊢
    cases hruns with
    | refused _ => rfl
    | entry hdata =>
      rcases entryData_request hdata with ⟨hreq', _⟩ | ⟨hreq', _⟩
      · rw [hreq] at hreq'
        cases hreq'
      · rw [hreq] at hreq'
        cases hreq'
  | @table c t sub hb hinv hS =>
    have hmode : info.mode = .table := by rw [MaptInfo.mode, hb]
    rw [hmode] at hreq
    have hruns := run_runsAs hb call
    generalize call.run info = res at hruns ⊢
    cases hruns with
    | refused _ => rfl
    | table hdata _ =>
      rcases data_request hdata with ⟨hreq', _⟩ | ⟨hreq', _⟩
      · rw [hreq] at hreq'
        cases hreq'
      · rw [hreq] at hreq'
        cases hreq'

/-- Every call is a request to the store. -/
theorem TidStands.request (h : TidStands y info S) (hfresh : call.Fresh y)
    (hrecord : call.RecordAlloc) :
    ∃ S', TidStands y (call.run info).info S' ∧ ∀ r, call.request info.mode = some r →
      S.Step r (decide ((call.run info).ret = 0)) S' := by
  cases h with
  | @entry node hb hok hS =>
    have hmode : info.mode = .entry := by rw [MaptInfo.mode, hb]
    obtain ⟨node', hb', hok', hstep⟩ := @entry_step info node call hb hok
    obtain ⟨S', hS'⟩ := hok'.leased.isStore.store
    exact ⟨S', .entry hb' hok' hS', hmode.symm ▸ hstep S S' hS hS'⟩
  | @table c t sub hb hinv hS =>
    have hmode : info.mode = .table := by rw [MaptInfo.mode, hb]
    obtain ⟨c', t', sub', hb', hinv', hstep⟩ := table_step hb hinv hfresh hrecord
    obtain ⟨S', hS'⟩ := hinv'.segs.leased.isStore.store
    exact ⟨S', .table hb' hinv' hS', hmode.symm ▸ hstep S S' hS hS'⟩

lemma TidStands.run_call (h : TidStands y info S) (hfresh : call.Fresh y)
    (hrecord : call.RecordAlloc) :
    ∃ S', TidStands y (call.run info).info S' ∧ S.Runs (call.log info) S' := by
  unfold ApiCall.log
  cases hreq : call.request info.mode with
  | none =>
    rw [h.no_request hreq]
    exact ⟨S, h, .nil S⟩
  | some r =>
    obtain ⟨S', h', hstep⟩ := h.request hfresh hrecord
    exact ⟨S', h', .cons (hstep r hreq) (.nil S')⟩

/-- Calls one after another are requests one after another. -/
theorem TidStands.run_calls (h : TidStands y info S) (hcalls : Served y calls) :
    ∃ S', TidStands y (info.after calls) S' ∧ S.Runs (info.log calls) S' := by
  induction calls generalizing info S with
  | nil => exact ⟨S, h, .nil S⟩
  | cons call calls ih =>
    obtain ⟨hfresh, hrecord⟩ := hcalls call (List.mem_cons_self ..)
    obtain ⟨S', h', hrun⟩ := h.run_call hfresh hrecord
    obtain ⟨S'', h'', hruns⟩ := ih h' (fun c hc => hcalls c (List.mem_cons_of_mem _ hc))
    exact ⟨S'', h'', hrun.append hruns⟩

lemma tidStart_stands (h : TidStart y info) :
    TidStands y info (empty Range.cells ummuMaxTokenNum (Nat × Nat) (BitVec 32)) := by
  have hempty : Stands (empty Range.cells ummuMaxTokenNum (Nat × Nat) (BitVec 32)) [] := by
    intro k l
    constructor
    · intro h
      cases h
    · rintro ⟨s, hs, _⟩
      cases hs
  rcases tidStart_base h with ⟨node, hb, hv, hn⟩ | ⟨c, hb, hinv⟩
  · apply TidStands.entry hb
    · have hne : ¬node.valid = true := by simp [hv]
      exact ⟨fun h => (hne h).elim, fun h => (hne h).elim, fun _ => hn⟩
    · rw [segs_invalid hv]
      exact hempty
  · exact .table hb hinv hempty

/-- A tid is a store of leases: the calls of any run are granted and refused as its requests are,
and the device finds for every address, in the entry node or the table, the lease held there. -/
theorem tid_refines_store (h : TidStart y info) (hcalls : Served y calls) :
    ∃ S : PermStore, (empty _ _ _ _).Runs (info.log calls) S ∧
      ∀ x l, (info.after calls).At x l ↔ S.At x l := by
  obtain ⟨S, hS, hruns⟩ := (tidStart_stands h).run_calls hcalls
  exact ⟨S, hruns, fun x l => hS.at_iff⟩

lemma served_page : Served True [pageGrant] := by
  have hfresh : pageGrant.Fresh True := fun mem hmem => by cases hmem
  intro call hcall
  obtain rfl := List.mem_singleton.mp hcall
  exact ⟨hfresh, rfl⟩

theorem tid_refines_store_page : ∃ S : PermStore,
    (empty _ _ _ _).Runs [(.grant ⟨0, 0xfff⟩ (3, 0) none, true)] S ∧
      ∀ x l, (pageGrant.run (newTid .zero)).info.At x l ↔ S.At x l :=
  tid_refines_store (@newTid_start True .zero rfl (fun _ => rfl)) served_page

end Runs

end Ummu
