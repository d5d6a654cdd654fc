import Ummu.SendRing
import Ummu.CplPoll

/-!
# Completions

A device that processes the command ring in order and posts a completion for each `PSYNC` before it
gives its entry back. Indices are used again, and calls that gave up leave their completions behind;
a match is still a match with the command of the call, because the completions that are pending when
a call publishes are all less than one turn behind it.
-/

namespace Ummu

open Lib QueueState

/-- A queue with a device: the index of the next command to process, the commands that are
processed, and the completions that are posted, each with the number of commands processed before
it. -/
structure DeviceRun where
  queue : QueueState
  procIdx : Nat
  processed : List CmdEntry
  posted : List (Nat × CplEntry)

namespace DeviceRun

/-- The command that the device processes next. -/
def command (s : Nat) (st : DeviceRun) : CmdEntry := st.queue.mem.cmdEntry (qIdx st.procIdx s)

/-- The device is done with its next command. -/
def process (s : Nat) (st : DeviceRun) : DeviceRun :=
  { st with
    procIdx := ummuUpdateQueueIndex s st.procIdx
    processed := st.processed ++ [st.command s] }

/-- The device posts the completion of its next command. -/
def post (c : Nat) (status : BitVec 4) (st : DeviceRun) : DeviceRun :=
  let entry : CplEntry := ⟨status, st.procIdx⟩
  let mem := st.queue.mem
  { st with
    queue := { st.queue with
      mem := { mem with
        ucplqPi := ummuUpdateQueueIndex c mem.ucplqPi
        cplEntry := Function.update mem.cplEntry (qIdx mem.ucplqPi c) entry } }
    posted := st.posted ++ [(st.processed.length, entry)] }

/-- The steps of the driver and of a device that works in order and never overruns the completion
ring. -/
inductive Next (s c : Nat) (st : DeviceRun) : DeviceRun → Prop
  | driver {q : QueueState} : DriverNext s c st.queue q → Next s c st { st with queue := q }
  | plbi : st.procIdx ≠ st.queue.mem.ucmdqPi → (st.command s).opcode ≠ psyncOp →
      Next s c st (st.process s)
  | psync (status : BitVec 4) : st.procIdx ≠ st.queue.mem.ucmdqPi →
      (st.command s).opcode = psyncOp →
      (∃ k < 2 ^ c, st.queue.mem.ucplqPi = advance c st.queue.mem.ucplqCi k) →
      Next s c st ((st.post c status).process s)
  | giveBack : st.queue.mem.ucmdqCi ≠ st.procIdx →
      Next s c st { st with queue := st.queue.fetch s }

/-- Both rings are empty. -/
structure Start (idx jdx : Nat) (st : DeviceRun) : Prop where
  queue : QueueState.Start idx st.queue
  procIdx : st.procIdx = idx
  processed : st.processed = []
  posted : st.posted = []
  lt : jdx < 2 ^ 16
  cplPi : st.queue.mem.ucplqPi = jdx
  cplCi : st.queue.mem.ucplqCi = jdx

end DeviceRun

section Completion

variable {s c idx jdx : Nat} {st st' : DeviceRun}

/-- The completions from the `r`-th on are of commands at most `n` before the end of what was
sent. -/
def Behind (st : DeviceRun) (r n : Nat) : Prop :=
  ∀ x ∈ st.posted.drop r, st.queue.sent.length ≤ x.1 + n

/-- What a call knows about the completions; `first` counts those before `ucplq_ci`. -/
def CplPcInv (s c jdx : Nat) (st : DeviceRun) (first : Nat) : Prop :=
  let read := st.queue.consumed.length
  match st.queue.pc with
  | .pollPi times _ => read = first ∧ Behind st read (2 ^ (s + 1)) ∧
      (times ≠ waitCplqTimes → Behind st read (2 ^ s))
  | .pollCi _ _ cplPi => read = first ∧ ∃ n, read ≤ n ∧ n ≤ st.posted.length ∧
      cplPi = advance c jdx n ∧ Behind st read (2 ^ (s + 1)) ∧ Behind st n (2 ^ s)
  | .pollEntry _ _ cplPi cplCi => first ≤ read ∧ ∃ n, read < n ∧ n ≤ st.posted.length ∧
      cplPi = advance c jdx n ∧ cplCi = advance c jdx read ∧
      Behind st read (2 ^ (s + 1)) ∧ Behind st n (2 ^ s)
  | .pollStore _ _ cplCi ret => first ≤ read ∧ read ≤ st.posted.length ∧
      cplCi = advance c jdx read ∧ Behind st read (2 ^ s) ∧
      (ret = 0 → st.processed.length = st.queue.sent.length)
  | _ => read = first ∧ Behind st read (2 ^ s)

/-- The completion ring holds what was posted and not given back, in order. -/
structure CplRing (c jdx : Nat) (st : DeviceRun) (first : Nat) : Prop where
  ci : st.queue.mem.ucplqCi = advance c jdx first
  le : first ≤ st.posted.length
  fits : st.posted.length ≤ first + 2 ^ c
  contents : window (2 ^ c) st.queue.mem.cplEntry (jdx + first) (st.posted.length - first) =
    (st.posted.drop first).map Prod.snd

structure CplInv (s c idx jdx : Nat) (st : DeviceRun) : Prop where
  ring : RingInv s idx st.queue
  proc : st.procIdx = advance s idx st.processed.length
  fetched_le : st.queue.fetched.length ≤ st.processed.length
  processed_le : st.processed.length ≤ st.queue.sent.length
  processed : st.processed = st.queue.sent.take st.processed.length
  posted : ∀ x ∈ st.posted, x.2.cmdqCi = advance s idx x.1 ∧ x.1 < st.processed.length
  sorted : st.posted.Pairwise (fun x y => x.1 < y.1)
  pi : st.queue.mem.ucplqPi = advance c jdx st.posted.length
  consumed : st.queue.consumed = (st.posted.map Prod.snd).take st.queue.consumed.length
  cpl : ∃ first, CplRing c jdx st first ∧ CplPcInv s c jdx st first

lemma CplInv.read_le (h : CplInv s c idx jdx st) :
    st.queue.consumed.length ≤ st.posted.length := by
  have hlen := congrArg List.length h.consumed
  rw [List.length_take, List.length_map] at hlen
  omega

lemma cplInv_start (h : DeviceRun.Start idx jdx st) : CplInv s c idx jdx st := by
  have hring := ringInv_start (s := s) h.queue
  refine ⟨hring, ?_, ?_, ?_, ?_, ?_, ?_, ?_, ?_, 0, ⟨?_, ?_, ?_, ?_⟩, ?_⟩
  · rw [h.procIdx, h.processed]
    rfl
  · rw [h.queue.fetched, h.processed]
  · rw [h.processed]
    exact Nat.zero_le _
  · rw [h.processed]
    rfl
  · rw [h.posted]
    intro x hx
    cases hx
  · rw [h.posted]
    exact List.Pairwise.nil
  · rw [h.cplPi, h.posted]
    rfl
  · rw [h.queue.consumed]
    rfl
  · rw [h.cplCi]
    rfl
  · exact Nat.zero_le _
  · rw [h.posted]
    exact Nat.zero_le _
  · rw [h.posted]
    rfl
  · rw [CplPcInv, h.queue.idle, h.queue.consumed]
    refine ⟨rfl, ?_⟩
    rw [Behind, h.posted]
    intro x hx
    cases hx

/-- What a call knows about the completions stays true when the device acts. -/
lemma CplPcInv.device {first : Nat} (h : CplPcInv s c jdx st first)
    (hread : st.queue.consumed.length ≤ st.posted.length) (hpc : st'.queue.pc = st.queue.pc)
    (hcons : st'.queue.consumed = st.queue.consumed)
    (hlen : st.posted.length ≤ st'.posted.length)
    (hbehind : ∀ r n, r ≤ st.posted.length → 2 ^ s ≤ n → Behind st r n → Behind st' r n)
    (hproc : st.processed.length = st.queue.sent.length →
      st'.processed.length = st'.queue.sent.length) : CplPcInv s c jdx st' first := by
  have hle : 2 ^ s ≤ 2 ^ (s + 1) := Nat.pow_le_pow_right (by omega) (by omega)
  unfold CplPcInv at h ⊢
  rw [hpc, hcons]
  cases hst : st.queue.pc with
  | pollPi times piSync =>
    rw [hst] at h
    exact ⟨h.1, hbehind _ _ hread hle h.2.1, fun ht => hbehind _ _ hread (le_refl _) (h.2.2 ht)⟩
  | pollCi times piSync cplPi =>
    rw [hst] at h
    obtain ⟨h1, n, h2, h3, h4, h5, h6⟩ := h
    exact ⟨h1, n, h2, h3.trans hlen, h4, hbehind _ _ hread hle h5, hbehind _ _ h3 (le_refl _) h6⟩
  | pollEntry times piSync cplPi cplCi =>
    rw [hst] at h
    obtain ⟨h1, n, h2, h3, h4, h5, h6, h7⟩ := h
    exact ⟨h1, n, h2, h3.trans hlen, h4, h5, hbehind _ _ hread hle h6,
      hbehind _ _ h3 (le_refl _) h7⟩
  | pollStore times piSync cplCi ret =>
    rw [hst] at h
    obtain ⟨h1, h2, h3, h4, h5⟩ := h
    exact ⟨h1, h2.trans hlen, h3, hbehind _ _ hread (le_refl _) h4, fun hret => hproc (h5 hret)⟩
  | _ =>
    rw [hst] at h
    exact ⟨h.1, hbehind _ _ hread (le_refl _) h.2⟩

/-- The device gives the entry of a processed command back. -/
lemma cplInv_giveBack (hs : s ≤ 15) (hidx : idx < 2 ^ 16) (h : CplInv s c idx jdx st)
    (hne : st.queue.mem.ucmdqCi ≠ st.procIdx) :
    CplInv s c idx jdx { st with queue := st.queue.fetch s } := by
  have hlt : st.queue.fetched.length < st.processed.length := by
    have := h.fetched_le
    by_contra hlt
    have heq : st.queue.fetched.length = st.processed.length := by omega
    exact hne (by rw [h.ring.ci, h.proc, heq])
  have hci : st.queue.mem.ucmdqCi ≠ st.queue.mem.ucmdqPi := by
    have h1 := h.processed_le
    have h2 := h.ring.fits
    have hpos : 2 ^ (s + 1) = 2 ^ s + 2 ^ s := by rw [pow_succ]; omega
    rw [h.ring.ci, h.ring.pi, ne_eq, advance_eq_iff hs hidx]
    exact slot_ne (by omega) (by omega)
  obtain ⟨first, hring, hpc⟩ := h.cpl
  refine ⟨ringInv_fetch hs hidx h.ring hci, h.proc, ?_, h.processed_le, h.processed, h.posted,
    h.sorted, h.pi, h.consumed, first, ⟨hring.ci, hring.le, hring.fits, hring.contents⟩,
    hpc.device h.read_le rfl rfl (le_refl _) (fun _ _ _ _ hb => hb) id⟩
  simpa [QueueState.fetch] using hlt

/-- The next command in the ring is the next one that was sent. -/
lemma CplInv.command (hs : s ≤ 15) (hidx : idx < 2 ^ 16) (h : CplInv s c idx jdx st)
    (hne : st.procIdx ≠ st.queue.mem.ucmdqPi) :
    st.processed.length < st.queue.sent.length ∧
      st.processed ++ [st.command s] = st.queue.sent.take (st.processed.length + 1) := by
  have hle := h.fetched_le
  have hlt : st.processed.length < st.queue.sent.length := by
    have := h.processed_le
    by_contra hlt
    have heq : st.processed.length = st.queue.sent.length := by omega
    exact hne (by rw [h.ring.pi, h.proc, heq])
  refine ⟨hlt, ?_⟩
  have hget : st.queue.sent[st.processed.length]? = some (st.command s) := by
    rw [← h.ring.contents, List.getElem?_append_right hle, window, List.getElem?_map,
      List.getElem?_range (by omega), Option.map_some, DeviceRun.command, h.proc,
      qIdx_advance hs hidx, show idx + st.queue.fetched.length +
        (st.processed.length - st.queue.fetched.length) = idx + st.processed.length by omega]
  rw [List.take_add_one, hget, ← h.processed]
  rfl

/-- The device is done with a command. -/
lemma cplInv_process (hs : s ≤ 15) (hidx : idx < 2 ^ 16) (h : CplInv s c idx jdx st)
    (hne : st.procIdx ≠ st.queue.mem.ucmdqPi) : CplInv s c idx jdx (st.process s) := by
  obtain ⟨hlt, hcommand⟩ := h.command hs hidx hne
  obtain ⟨first, hring, hpc⟩ := h.cpl
  have hle := h.fetched_le
  have hlen : (st.process s).processed.length = st.processed.length + 1 := by
    simp [DeviceRun.process]
  refine ⟨h.ring, ?_, ?_, ?_, ?_, ?_, h.sorted, h.pi, h.consumed, first,
    ⟨hring.ci, hring.le, hring.fits, hring.contents⟩,
    hpc.device h.read_le rfl rfl (le_refl _) (fun _ _ _ _ hb => hb) (fun he => by omega)⟩
  · rw [hlen, advance_succ, ← h.proc]
    rfl
  · rw [hlen]
    exact hle.trans (Nat.le_succ _)
  · rw [hlen]
    exact hlt
  · rw [hlen]
    exact hcommand
  · intro x hx
    obtain ⟨h1, h2⟩ := h.posted x hx
    exact ⟨h1, by rw [hlen]; omega⟩

/-- The device posts the completion of the command that it is about to be done with. -/
lemma cplInv_psync (hs : s ≤ 15) (hc : c ≤ 15) (hidx : idx < 2 ^ 16) (hjdx : jdx < 2 ^ 16)
    (h : CplInv s c idx jdx st) (status : BitVec 4) (hne : st.procIdx ≠ st.queue.mem.ucmdqPi)
    (hroom : ∃ k < 2 ^ c, st.queue.mem.ucplqPi = advance c st.queue.mem.ucplqCi k) :
    CplInv s c idx jdx ((st.post c status).process s) := by
  obtain ⟨hlt, hcommand⟩ := h.command hs hidx hne
  obtain ⟨first, hring, hpc⟩ := h.cpl
  have hle := h.fetched_le
  have hfits := h.ring.fits
  have hfirst := hring.le
  have hlen : ((st.post c status).process s).processed.length = st.processed.length + 1 := by
    simp [DeviceRun.process, DeviceRun.post]
  have hposted : ((st.post c status).process s).posted =
      st.posted ++ [(st.processed.length, ⟨status, st.procIdx⟩)] := rfl
  have hsent : ((st.post c status).process s).queue.sent = st.queue.sent := rfl
  have hspace : st.posted.length < first + 2 ^ c := by
    obtain ⟨k, hk, hpi⟩ := hroom
    have hring2 := hring.fits
    have hpow : 2 ^ (c + 1) = 2 ^ c + 2 ^ c := by rw [pow_succ]; omega
    rw [h.pi, hring.ci, advance_add, advance_eq_iff hc hjdx] at hpi
    by_contra hfull
    exact slot_ne (show first + k < st.posted.length by omega) (by omega) hpi.symm
  refine ⟨h.ring.move rfl rfl rfl rfl rfl h.ring.pc, ?_, ?_, ?_, ?_, ?_, ?_, ?_, ?_, first,
    ⟨hring.ci, ?_, ?_, ?_⟩, ?_⟩
  · rw [hlen, advance_succ, ← h.proc]
    rfl
  · rw [hlen]
    exact hle.trans (Nat.le_succ _)
  · rw [hlen]
    exact hlt
  · rw [hlen]
    exact hcommand
  · intro x hx
    rw [hposted] at hx
    rcases List.mem_append.mp hx with hx | hx
    · obtain ⟨h1, h2⟩ := h.posted x hx
      exact ⟨h1, by rw [hlen]; omega⟩
    · obtain rfl := List.mem_singleton.mp hx
      exact ⟨h.proc, by rw [hlen]; exact Nat.lt_succ_self _⟩
  · rw [hposted, List.pairwise_append]
    refine ⟨h.sorted, List.pairwise_singleton _ _, fun x hx y hy => ?_⟩
    obtain rfl := List.mem_singleton.mp hy
    exact (h.posted x hx).2
  · rw [hposted, List.length_append, List.length_singleton, advance_succ, ← h.pi]
    rfl
  · have hcons : ((st.post c status).process s).queue.consumed = st.queue.consumed := rfl
    have hread := h.read_le
    rw [hcons, hposted, List.map_append, List.take_append_of_le_length (by simpa using hread)]
    exact h.consumed
  · rw [hposted, List.length_append]
    exact hfirst.trans (Nat.le_add_right _ _)
  · rw [hposted, List.length_append, List.length_singleton]
    exact hspace
  · have hentry : ((st.post c status).process s).queue.mem.cplEntry =
        Function.update st.queue.mem.cplEntry ((jdx + st.posted.length) % 2 ^ c)
          ⟨status, st.procIdx⟩ := by
      rw [← qIdx_advance hc hjdx, ← h.pi]
      rfl
    rw [hentry, hposted, List.length_append, List.length_singleton,
      List.drop_append_of_le_length hfirst, List.map_append,
      show st.posted.length + 1 - first = st.posted.length - first + 1 by omega, window_push,
      show jdx + first + (st.posted.length - first) = jdx + st.posted.length by omega,
      Function.update_self, window_update _ (by omega) (by omega), hring.contents]
    rfl
  · refine hpc.device h.read_le rfl rfl ?_ ?_ (fun he => by omega)
    · rw [hposted, List.length_append]
      exact Nat.le_add_right _ _
    · intro r n hr hn hb x hx
      rw [hposted, List.drop_append_of_le_length hr] at hx
      rw [hsent]
      rcases List.mem_append.mp hx with hx | hx
      · exact hb x hx
      · obtain rfl := List.mem_singleton.mp hx
        simp only
        omega

/-- An access of the call, with what it leaves of the completion ring. -/
lemma CplInv.drive (h : CplInv s c idx jdx st) {q : QueueState} (hring : RingInv s idx q)
    (hf : q.fetched = st.queue.fetched) (hsent : st.queue.sent <+: q.sent)
    (hcons : q.consumed = (st.posted.map Prod.snd).take q.consumed.length)
    (hpi : q.mem.ucplqPi = st.queue.mem.ucplqPi)
    (hcpl : ∃ first, CplRing c jdx { st with queue := q } first ∧
      CplPcInv s c jdx { st with queue := q } first) :
    CplInv s c idx jdx { st with queue := q } := by
  refine ⟨hring, h.proc, ?_, h.processed_le.trans hsent.length_le, ?_, h.posted, h.sorted, ?_,
    hcons, hcpl⟩
  · simp only
    rw [hf]
    exact h.fetched_le
  · obtain ⟨more, hmore⟩ := hsent
    simp only
    rw [← hmore, List.take_append_of_le_length h.processed_le]
    exact h.processed
  · simp only
    rw [hpi]
    exact h.pi

/-- An access that has nothing to do with completions. -/
lemma CplInv.wait (h : CplInv s c idx jdx st) {q : QueueState} (hring : RingInv s idx q)
    (hf : q.fetched = st.queue.fetched) (hsent : q.sent = st.queue.sent)
    (hcons : q.consumed = st.queue.consumed) (hpi : q.mem.ucplqPi = st.queue.mem.ucplqPi)
    (hci : q.mem.ucplqCi = st.queue.mem.ucplqCi) (hentry : q.mem.cplEntry = st.queue.mem.cplEntry)
    (hp : st.queue.polling = false) (hq : q.polling = false) :
    CplInv s c idx jdx { st with queue := q } := by
  obtain ⟨first, hcpl, hpc⟩ := h.cpl
  refine h.drive hring hf (hsent ▸ List.prefix_refl _) (hcons ▸ h.consumed) hpi ⟨first,
    ⟨hci.trans hcpl.ci, hcpl.le, hcpl.fits, hentry ▸ hcpl.contents⟩, ?_⟩
  have hsame : st.queue.consumed.length = first ∧ Behind st st.queue.consumed.length (2 ^ s) := by
    unfold polling at hp
    unfold CplPcInv at hpc
    cases hst : st.queue.pc <;> rw [hst] at hp hpc <;> first | exact hpc | cases hp
  have hgoal : q.consumed.length = first ∧
      Behind { st with queue := q } q.consumed.length (2 ^ s) := by
    rw [hcons]
    refine ⟨hsame.1, fun x hx => ?_⟩
    simp only
    rw [hsent]
    exact hsame.2 x hx
  unfold polling at hq
  unfold CplPcInv
  cases hst : q.pc <;> rw [hst] at hq <;> first | exact hgoal | cases hq

/-- The end of a poll: the completions that are left are those posted after it began. -/
lemma CplInv.afterPoll (h : CplInv s c idx jdx st) {q : QueueState} (hring : RingInv s idx q)
    (hp : q.polling = true) (hf : q.fetched = st.queue.fetched) (hsent : q.sent = st.queue.sent)
    (hcons : q.consumed = st.queue.consumed) (hpi : q.mem.ucplqPi = st.queue.mem.ucplqPi)
    (hcpl : CplRing c jdx { st with queue := q } q.consumed.length)
    (hb : Behind st q.consumed.length (2 ^ s)) {times piSync : Nat}
    (hsync : piSync = advance s idx (q.sent.length - 1)) (ret : Int) :
    CplInv s c idx jdx { st with queue := q.afterPoll times piSync ret } := by
  have hle : 2 ^ s ≤ 2 ^ (s + 1) := Nat.pow_le_pow_right (by omega) (by omega)
  have hring' := @RingInv.afterPoll s idx q hring hp times piSync hsync ret
  have hcons' : q.consumed = (st.posted.map Prod.snd).take q.consumed.length := hcons ▸ h.consumed
  have hfinish : (q.finish 0).sent = st.queue.sent := (sent_finish_zero hp).trans hsent
  have hpoll : ({ q with pc := .pollPi (times - 1) piSync } : QueueState).sent = st.queue.sent := by
    rw [← hsent]
    exact sent_of_polling rfl rfl hp.symm
  unfold QueueState.afterPoll at hring' ⊢
  by_cases h0 : ret = 0 ∨ times - 1 = 0
  · have hq : (if ret = 0 then q.finish 0 else if times - 1 = 0 then q.finish 0
        else { q with pc := .pollPi (times - 1) piSync }) = q.finish 0 := by
      rcases h0 with h0 | h0 <;> simp [h0]
    rw [hq] at hring' ⊢
    refine h.drive hring' hf (hfinish ▸ List.prefix_refl _) hcons' hpi ⟨q.consumed.length,
      ⟨hcpl.ci, hcpl.le, hcpl.fits, hcpl.contents⟩, rfl, fun x hx => ?_⟩
    simp only
    rw [hfinish]
    exact hb x hx
  · rw [not_or] at h0
    rw [if_neg h0.1, if_neg h0.2] at hring' ⊢
    have hstrong : Behind { st with queue := { q with pc := .pollPi (times - 1) piSync } }
        q.consumed.length (2 ^ s) := by
      intro x hx
      simp only
      rw [hpoll]
      exact hb x hx
    exact h.drive hring' hf (hpoll ▸ List.prefix_refl _) hcons' hpi ⟨q.consumed.length,
      ⟨hcpl.ci, hcpl.le, hcpl.fits, hcpl.contents⟩, rfl, fun x hx => (hstrong x hx).trans
        (Nat.add_le_add_left hle _), fun _ => hstrong⟩

/-- An access of a poll that leaves the completion ring as it is. -/
lemma CplInv.poll (h : CplInv s c idx jdx st) {pc : SendPc} {consumed : List CplEntry} {first : Nat}
    (hring : RingInv s idx { st.queue with consumed := consumed, pc := pc })
    (hp : st.queue.polling = true)
    (hp' : ({ st.queue with consumed := consumed, pc := pc } : QueueState).polling = true)
    (hcons : consumed = (st.posted.map Prod.snd).take consumed.length)
    (hcpl : CplRing c jdx st first)
    (hpc : ({ st.queue with consumed := consumed, pc := pc } : QueueState).sent = st.queue.sent →
      (∀ r n, Behind st r n →
        Behind { st with queue := { st.queue with consumed := consumed, pc := pc } } r n) →
      CplPcInv s c jdx { st with queue := { st.queue with consumed := consumed, pc := pc } } first) :
    CplInv s c idx jdx { st with queue := { st.queue with consumed := consumed, pc := pc } } := by
  have hsent : ({ st.queue with consumed := consumed, pc := pc } : QueueState).sent =
      st.queue.sent := sent_of_polling rfl rfl (hp'.trans hp.symm)
  refine h.drive hring rfl (hsent ▸ List.prefix_refl _) hcons rfl ⟨first,
    ⟨hcpl.ci, hcpl.le, hcpl.fits, hcpl.contents⟩, hpc hsent (fun r n hb x hx => ?_)⟩
  simp only
  rw [hsent]
  exact hb x hx

/-- The entry that the poll reads is the next one of those posted. -/
lemma CplInv.next {first : Nat} (hcpl : CplRing c jdx st first)
    (hfirst : first ≤ st.queue.consumed.length)
    (hlt : st.queue.consumed.length < st.posted.length) :
    ∃ x, st.posted[st.queue.consumed.length]? = some x ∧
      st.queue.mem.cplEntry ((jdx + st.queue.consumed.length) % 2 ^ c) = x.2 := by
  have hcontents := congrArg (fun l => l[st.queue.consumed.length - first]?) hcpl.contents
  simp only [window, List.getElem?_map, List.getElem?_drop] at hcontents
  rw [List.getElem?_range (by omega), Option.map_some, show jdx + first +
    (st.queue.consumed.length - first) = jdx + st.queue.consumed.length by omega,
    show first + (st.queue.consumed.length - first) = st.queue.consumed.length by omega]
    at hcontents
  refine ⟨_, List.getElem?_eq_getElem hlt, ?_⟩
  rw [List.getElem?_eq_getElem hlt, Option.map_some] at hcontents
  exact Option.some.inj hcontents

/-- A completion with the index of the last command is the completion of that command. -/
lemma CplInv.genuine (hs : s ≤ 15) (hidx : idx < 2 ^ 16) (h : CplInv s c idx jdx st)
    {x : Nat × CplEntry} {r : Nat} (hx : st.posted[r]? = some x)
    (hb : Behind st r (2 ^ (s + 1)))
    (hmatch : x.2.cmdqCi = advance s idx (st.queue.sent.length - 1)) :
    st.processed.length = st.queue.sent.length ∧ st.posted.drop (r + 1) = [] := by
  have hr : r < st.posted.length := (List.getElem?_eq_some_iff.mp hx).1
  have hxr : st.posted.drop r = x :: st.posted.drop (r + 1) := by
    rw [List.drop_eq_getElem_cons hr, (List.getElem?_eq_some_iff.mp hx).2]
  have hfar := hb x (hxr ▸ List.mem_cons_self)
  obtain ⟨h1, h2⟩ := h.posted x (List.mem_of_getElem? hx)
  have h3 := h.processed_le
  rw [h1, advance_eq_iff hs hidx] at hmatch
  have hlast : x.1 = st.queue.sent.length - 1 := by
    by_contra hne
    exact slot_ne (show x.1 < st.queue.sent.length - 1 by omega) (by omega) hmatch
  refine ⟨by omega, List.eq_nil_iff_forall_not_mem.mpr (fun y hy => ?_)⟩
  have hsorted := h.sorted.sublist (List.drop_sublist r st.posted)
  rw [hxr, List.pairwise_cons] at hsorted
  have h4 := hsorted.1 y hy
  have h5 := (h.posted y (List.mem_of_mem_drop hy)).2
  omega

/-- An access of a call keeps the completions in order. -/
lemma cplInv_sendStep (hs : s ≤ 15) (hc : c ≤ 15) (hidx : idx < 2 ^ 16) (hjdx : jdx < 2 ^ 16)
    (h : CplInv s c idx jdx st) : CplInv s c idx jdx { st with queue := st.queue.sendStep s c } := by
  have hring := ringInv_sendStep (c := c) hs hidx h.ring
  have hsync := h.ring.pc
  have hpow : 2 ^ (c + 1) = 2 ^ c + 2 ^ c := by rw [pow_succ]; omega
  obtain ⟨first, hcpl, hpc⟩ := h.cpl
  have hfirst := hcpl.le
  have hfits := hcpl.fits
  -- two positions of the completion ring in use have the same index only if they are equal
  have hinj : ∀ m n, first ≤ m → first ≤ n → m ≤ st.posted.length → n ≤ st.posted.length →
      advance c jdx m = advance c jdx n → m = n := by
    intro m n hm hn hm' hn' he
    rw [advance_eq_iff hc hjdx] at he
    rcases Nat.lt_trichotomy m n with hlt | heq | hgt
    · exact (slot_ne hlt (by omega) he).elim
    · exact heq
    · exact (slot_ne hgt (by omega) he.symm).elim
  unfold PcInv at hsync
  unfold CplPcInv at hpc
  unfold sendStep at hring ⊢
  cases hst : st.queue.pc with
  | pollPi times piSync =>
    rw [hst] at hring hpc
    obtain ⟨h1, h2, _⟩ := hpc
    refine h.poll hring (by rw [polling, hst]) rfl h.consumed hcpl (fun _ hb => ⟨h1, st.posted.length,
      h.read_le, le_refl _, h.pi, hb _ _ h2, hb _ _ (fun x hx => ?_)⟩)
    rw [List.drop_length] at hx
    cases hx
  | pollCi times piSync cplPi =>
    rw [hst] at hring hpc hsync
    obtain ⟨h1, n, h2, h3, rfl, h5, h6⟩ := hpc
    have hp : st.queue.polling = true := by rw [polling, hst]
    simp only at hring ⊢
    by_cases hempty : advance c jdx n = st.queue.mem.ucplqCi
    · rw [if_pos hempty] at hring ⊢
      rw [hcpl.ci] at hempty
      obtain rfl := hinj n first (by omega) (le_refl _) h3 hfirst hempty
      exact h.afterPoll h.ring hp rfl rfl rfl rfl (h1 ▸ hcpl) (h1 ▸ h6) hsync _
    · rw [if_neg hempty] at hring ⊢
      have hlt : st.queue.consumed.length < n := by
        refine Nat.lt_of_le_of_ne h2 (fun he => hempty ?_)
        rw [hcpl.ci, ← h1, he]
      exact h.poll hring hp rfl h.consumed hcpl (fun _ hb => ⟨h1.ge, n, hlt, h3, rfl,
        by rw [hcpl.ci, ← h1], hb _ _ h5, hb _ _ h6⟩)
  | pollEntry times piSync cplPi cplCi =>
    rw [hst] at hring hpc hsync
    obtain ⟨h1, n, h2, h3, rfl, rfl, h6, h7⟩ := hpc
    have hp : st.queue.polling = true := by rw [polling, hst]
    obtain ⟨x, hx, hentry⟩ := CplInv.next hcpl h1 (lt_of_lt_of_le h2 h3)
    simp only [and_idxMask hc hjdx, cplRound_eq hc hjdx, hentry, decide_eq_true_eq] at hring ⊢
    have hlen : (st.queue.consumed ++ [x.2]).length = st.queue.consumed.length + 1 := by simp
    have hcons : st.queue.consumed ++ [x.2] =
        (st.posted.map Prod.snd).take (st.queue.consumed ++ [x.2]).length := by
      rw [hlen, List.take_add_one, ← h.consumed, List.getElem?_map, hx]
      rfl
    by_cases hmatch : x.2.cmdqCi = piSync
    · rw [if_pos hmatch] at hring ⊢
      obtain ⟨h8, h9⟩ := h.genuine hs hidx hx h6 (hmatch.trans hsync)
      refine h.poll hring hp rfl hcons hcpl (fun hsent hb => ?_)
      unfold CplPcInv
      simp only [hlen, hsent]
      refine ⟨by omega, by omega, trivial, hb _ _ (fun y hy => ?_), fun _ => h8⟩
      rw [h9] at hy
      cases hy
    · rw [if_neg hmatch] at hring ⊢
      by_cases hend : advance c jdx n = advance c jdx (st.queue.consumed.length + 1)
      · rw [if_pos hend] at hring ⊢
        obtain rfl := hinj n (st.queue.consumed.length + 1) (by omega) (by omega) h3 (by omega) hend
        refine h.poll hring hp rfl hcons hcpl (fun _ hb => ?_)
        unfold CplPcInv
        simp only [hlen]
        refine ⟨by omega, h3, trivial, hb _ _ h7, fun hret => ?_⟩
        exact (show (-eagain : Int) ≠ 0 by decide) hret |>.elim
      · rw [if_neg hend] at hring ⊢
        have hlt : st.queue.consumed.length + 1 < n :=
          Nat.lt_of_le_of_ne h2 (fun he => hend (by rw [he]))
        refine h.poll hring hp rfl hcons hcpl (fun _ hb => ?_)
        unfold CplPcInv
        simp only [hlen]
        exact ⟨by omega, n, hlt, h3, rfl, trivial,
          hb _ _ (fun y hy => h6 y (List.mem_of_mem_drop (by rwa [List.drop_drop]))), hb _ _ h7⟩
  | pollStore times piSync cplCi ret =>
    rw [hst] at hring hpc hsync
    obtain ⟨h1, h2, rfl, h4, _⟩ := hpc
    have hp : st.queue.polling = true := by rw [polling, hst]
    refine h.afterPoll (q := { st.queue with mem := { st.queue.mem with
      ucplqCi := advance c jdx st.queue.consumed.length } }) ?_ hp rfl rfl rfl rfl ?_ h4 hsync _
    · exact h.ring.move rfl rfl rfl rfl rfl h.ring.pc
    · have hdrop := congrArg (List.drop (st.queue.consumed.length - first)) hcpl.contents
      rw [window_drop (by omega), ← List.map_drop, List.drop_drop] at hdrop
      refine ⟨rfl, h2, by simp only; omega, ?_⟩
      simp only
      rw [show st.posted.length - st.queue.consumed.length =
          st.posted.length - first - (st.queue.consumed.length - first) by omega,
        show jdx + st.queue.consumed.length = jdx + first + (st.queue.consumed.length - first) by
          omega, hdrop, show first + (st.queue.consumed.length - first) =
          st.queue.consumed.length by omega]
  | publish piWr piSync =>
    rw [hst] at hring hpc hsync
    obtain ⟨hroom, -⟩ := hsync
    obtain ⟨h1, h2⟩ := hpc
    have hp : st.queue.polling = false := by rw [polling, hst]
    simp only at hring ⊢
    have hsent : ({ st.queue with
        mem := { st.queue.mem with ucmdqPi := piWr }
        pc := .pollPi waitCplqTimes piSync } : QueueState).sent =
        st.queue.sent ++ st.queue.call.commands := sent_publish rfl rfl hp rfl
    refine h.drive hring rfl (hsent ▸ List.prefix_append _ _) h.consumed rfl ⟨first,
      ⟨hcpl.ci, hcpl.le, hcpl.fits, hcpl.contents⟩, h1, fun x hx => ?_, fun ht => (ht rfl).elim⟩
    have hfar := h2 x hx
    have hfetched := h.ring.le
    unfold Room at hroom
    simp only
    rw [hsent, List.length_append, commands_length, pow_succ]
    omega
  | idle => exact h
  | spacePi times =>
    rw [hst] at hring
    have hp : st.queue.polling = false := by rw [polling, hst]
    exact h.wait hring rfl (sent_of_not_polling rfl hp rfl) rfl rfl rfl rfl hp rfl
  | spaceCi times pi =>
    rw [hst] at hring
    have hp : st.queue.polling = false := by rw [polling, hst]
    simp only at hring ⊢
    split_ifs at hring ⊢
    · exact h.wait hring rfl (sent_of_not_polling rfl hp rfl) rfl rfl rfl rfl hp rfl
    · exact h.wait hring rfl (sent_finish_timeout hp) rfl rfl rfl rfl hp rfl
    · exact h.wait hring rfl (sent_of_not_polling rfl hp rfl) rfl rfl rfl rfl hp rfl
  | readPi =>
    rw [hst] at hring
    have hp : st.queue.polling = false := by rw [polling, hst]
    exact h.wait hring rfl (sent_of_not_polling rfl hp rfl) rfl rfl rfl rfl hp rfl
  | copyPlbi left piWr =>
    rw [hst] at hring
    have hp : st.queue.polling = false := by rw [polling, hst]
    exact h.wait hring rfl (sent_of_not_polling rfl hp rfl) rfl rfl rfl rfl hp rfl
  | copyPsync left piWr =>
    rw [hst] at hring
    have hp : st.queue.polling = false := by rw [polling, hst]
    simp only at hring ⊢
    split_ifs at hring ⊢
    · exact h.wait hring rfl (sent_of_not_polling rfl hp rfl) rfl rfl rfl rfl hp rfl
    · exact h.wait hring rfl (sent_of_not_polling rfl hp rfl) rfl rfl rfl rfl hp rfl

lemma cplInv_next (hs : s ≤ 15) (hc : c ≤ 15) (hidx : idx < 2 ^ 16) (hjdx : jdx < 2 ^ 16)
    (h : CplInv s c idx jdx st) (hnext : DeviceRun.Next s c st st') : CplInv s c idx jdx st' := by
  cases hnext with
  | driver hd =>
    cases hd with
    | call call hidle =>
      have hp : st.queue.polling = false := by rw [polling, hidle]
      exact h.wait (ringInv_begin h.ring hidle call) rfl (sent_of_not_polling rfl hp rfl) rfl rfl rfl
        rfl hp rfl
    | step _ => exact cplInv_sendStep hs hc hidx hjdx h
  | plbi hne _ => exact cplInv_process hs hidx h hne
  | psync status hne _ hroom => exact cplInv_psync hs hc hidx hjdx h status hne hroom
  | giveBack hne => exact cplInv_giveBack hs hidx h hne

/-- The invariant of both rings holds in every state of every run. -/
theorem reachable_cplInv (hs : s ≤ 15) (hc : c ≤ 15)
    (h : Reachable (DeviceRun.Start idx jdx) (DeviceRun.Next s c) st) : CplInv s c idx jdx st :=
  (h.invariant (I := fun st => CplInv s c idx jdx st ∧ idx < 2 ^ 16 ∧ jdx < 2 ^ 16)
    (fun _ hst => ⟨cplInv_start hst, hst.queue.lt, hst.lt⟩)
    (fun _ _ hinv hnext => ⟨cplInv_next hs hc hinv.2.1 hinv.2.2 hinv.1 hnext, hinv.2⟩)).1

/-- When the poll of a call succeeds, the device has processed every command sent so far, the last
`PSYNC` of the call included; and what was consumed is a prefix of what was posted. -/
theorem completion_genuine (hs : s ≤ 15) (hc : c ≤ 15)
    (h : Reachable (DeviceRun.Start idx jdx) (DeviceRun.Next s c) st) :
    (∀ times piSync cplCi, st.queue.pc = .pollStore times piSync cplCi 0 →
      st.processed =
        st.queue.succeeded.flatMap SendCall.commands ++ st.queue.call.commands) ∧
      st.queue.consumed <+: st.posted.map Prod.snd := by
  have hinv := reachable_cplInv hs hc h
  refine ⟨fun times piSync cplCi hst => ?_, ?_⟩
  · obtain ⟨first, -, hpc⟩ := hinv.cpl
    unfold CplPcInv at hpc
    rw [hst] at hpc
    have hall := hinv.processed
    rw [hpc.2.2.2.2 rfl, List.take_length] at hall
    rw [hall, sent, published, polling, hst]
    simp
  · rw [hinv.consumed]
    exact List.take_prefix _ _

/-- A device at work on a queue as it is after its creation. -/
def freshRun : DeviceRun := ⟨freshQueue, 0, [], []⟩

lemma freshRun_start : DeviceRun.Start 0 0 freshRun :=
  ⟨freshQueue_start, rfl, rfl, rfl, by decide, rfl, rfl⟩

def DeviceRun.drive (s c : Nat) (st : DeviceRun) : DeviceRun :=
  { st with queue := st.queue.sendStep s c }

lemma reachable_drive (n : Nat)
    (h : Reachable (DeviceRun.Start idx jdx) (DeviceRun.Next s c) st) :
    Reachable (DeviceRun.Start idx jdx) (DeviceRun.Next s c) ((DeviceRun.drive s c)^[n] st) := by
  induction n with
  | zero => exact h
  | succ n ih =>
    rw [Function.iterate_succ_apply']
    by_cases hidle : ((DeviceRun.drive s c)^[n] st).queue.pc = .idle
    · have hstay : DeviceRun.drive s c ((DeviceRun.drive s c)^[n] st) =
          (DeviceRun.drive s c)^[n] st := by
        rw [DeviceRun.drive, sendStep, hidle]
      rwa [hstay]
    · exact .step ih (.driver (.step hidle))

theorem completion_genuine_example :
    let st := (DeviceRun.drive 2 2)^[6] { freshRun with queue := freshQueue.begin sendUserAll }
    let done := (DeviceRun.drive 2 2)^[3] (((st.process 2).post 2 cplCmdPsyncSucc).process 2)
    done.processed = done.queue.succeeded.flatMap SendCall.commands ++
      done.queue.call.commands ∧ done.queue.consumed <+: done.posted.map Prod.snd := by
  have hbegin : Reachable (DeviceRun.Start 0 0) (DeviceRun.Next 2 2)
      { freshRun with queue := freshQueue.begin sendUserAll } :=
    .step (.start freshRun_start) (.driver (.call sendUserAll rfl))
  have hplbi := Reachable.step (reachable_drive 6 hbegin)
    (DeviceRun.Next.plbi (by decide) (by decide))
  have hpsync := Reachable.step hplbi
    (DeviceRun.Next.psync cplCmdPsyncSucc (by decide) (by decide) ⟨0, by decide, by decide⟩)
  have h := completion_genuine (by decide) (by decide) (reachable_drive 3 hpsync)
  exact ⟨h.1 4 1 1 (by decide), h.2⟩

end Completion

end Ummu
