import Ummu.Locks
import Ummu.SerialCalls
import Ummu.Allocate

/-!
# The mutexes are enough

Calls are atomic: whatever the threads do, every call returns what it would have returned, and
leaves what it would have left, had the calls been made one after another. No thread uses a released
object, and some thread can always go on.
-/

namespace Ummu

open Lib

section Views

variable {τ : Type}

/-- An object once the thread that holds its mutex is done with it. -/
def Pc.settle : Pc → Cell τ → Cell τ
  | .inside _ call _ p, c => (p.finish call c).2
  | _, c => c

def State.settled (s : State τ) (c : Cell τ) : Cell τ :=
  match c.maptMutex with
  | none => c
  | some t => (s.pc t).settle c

/-- What an object comes to, with the invalidations on its queues. -/
def State.content (s : State τ) (o : Nat) : Option (MaptObj × List PlbiRange) :=
  match s.heap o with
  | .live c => some ((s.settled c).obj, (s.settled c).plbi)
  | _ => none

def State.view (s : State τ) (tid : BitVec 32) : Option (MaptObj × List PlbiRange) :=
  (s.maptMap tid).bind s.content

/-- The call of a thread at `p` that has taken effect, with what it is going to return. -/
def Pc.pending (heap : Nat → Slot τ) : Pc → List (Op × Outcome)
  | .inside tid call o p =>
    match heap o with
    | .live c => [(.api tid call, ⟨(p.finish call c).1, none⟩)]
    | _ => []
  | .freeUnlock tid _ => [(.free tid, ⟨0, none⟩)]
  | .destroy _ _ op out => [(op, out)]
  | .putTid _ op out => [(op, out)]
  | .unlockCtx op out => [(op, out)]
  | _ => []

/-- The calls of a thread that have taken effect. -/
def State.seen (s : State τ) (t : τ) : List (Op × Outcome) :=
  s.returned t ++ (s.pc t).pending s.heap

/-- What a thread relies on that has passed the checks of its call. -/
def Prepared (s : State τ) : Pc → Prop
  | .lockCtx c => c.Checked
  | .lookup _ call => call.refused = none
  | .lockMapt _ call _ => call.refused = none
  | .getTid tidAttr tid mode => (Call.allocate tidAttr tid mode).Checked
  | .create tidAttr tid mode env =>
    (Call.allocate tidAttr tid mode).Checked ∧ ummuGetTid s.sharedFd env.ioctl = 0
  | .insert tidAttr tid env o =>
    ∃ mode obj, (Call.allocate tidAttr tid mode).Checked ∧ ummuGetTid s.sharedFd env.ioctl = 0 ∧
      (createObj mode env.info env.create env.queue).1 = some obj ∧ s.heap o = .live ⟨obj, [], none⟩
  | _ => True

/-- The program stands where the calls that have taken effect, made one after another, lead to. -/
structure Sim (s : State τ) (c : SerialState) : Prop where
  inv : LockInv s
  prepared : ∀ t, Prepared s (s.pc t)
  fd : c.ctx.sharedFd = s.sharedFd
  view : s.view = c.view

/-- The objects that an action may write. -/
inductive Writes (s : State τ) (t : τ) (o : Nat) : Prop where
  | lock {tid : BitVec 32} {c : Cell τ} (hm : (s.pc t).mapped = some (tid, o))
      (hc : s.heap o = .live c) (hfree : c.maptMutex = none)
  | mine (h : (s.pc t).mapt = some o)
  | create (h : s.heap o = .fresh)
  | destroy (h : (s.pc t).owned = some o)

variable {s s' : State τ} {t u : τ} {o : Nat}

/-- An action leaves the objects of the other threads alone. -/
lemma Writes.not_others (h : LockInv s) (hw : Writes s t o) (hu : u ≠ t) :
    (s.pc u).owned ≠ some o ∧ (s.pc u).mapt ≠ some o := by
  have hfresh : s.heap o = .fresh → ∀ c, s.heap o ≠ .live c := by
    intro hf c hc
    rw [hf] at hc
    cases hc
  constructor
  · intro ho
    have hctx := Pc.owned_ctx ho
    have hhidden := (h.fits u).owned o ho
    cases hw with
    | lock hm hc hfree => exact hhidden.2 _ ((h.fits t).mapped _ o hm)
    | mine hmine =>
      exact h.hidden_mutex hctx hhidden.2 hu.symm (((h.fits t).mutex o).mpr hmine)
    | create hf =>
      obtain ⟨c, hc⟩ := hhidden.1
      exact hfresh hf c hc
    | destroy hown => exact hu (h.ctx_unique hctx (Pc.owned_ctx hown))
  · intro hmapt
    have hmutex := ((h.fits u).mutex o).mpr hmapt
    cases hw with
    | lock hm hc hfree =>
      rw [hasMutex_iff hc, hfree] at hmutex
      cases hmutex
    | mine hmine => exact hu (h.mapt_unique hmapt hmine)
    | create hf =>
      obtain ⟨c, hc, _⟩ := hmutex
      exact hfresh hf c hc
    | destroy hown =>
      exact h.hidden_mutex (Pc.owned_ctx hown) ((h.fits t).owned o hown).2 hu hmutex

lemma view_same (hmap : s'.maptMap = s.maptMap)
    (hcontent : ∀ tid o, s.maptMap tid = some o → s'.content o = s.content o) :
    s'.view = s.view := by
  funext tid
  rw [State.view, State.view, hmap]
  cases hm : s.maptMap tid with
  | none => rfl
  | some o => exact hcontent tid o hm

variable {c : SerialState}

/-- What the map finds is there for the calls made one after another. -/
lemma Sim.found (h : Sim s c) {tid : BitVec 32} {cell : Cell τ} (hm : s.maptMap tid = some o)
    (hc : s.heap o = .live cell) :
    c.view tid = some ((s.settled cell).obj, (s.settled cell).plbi) := by
  rw [← h.view, State.view, hm, Option.bind_some, State.content, hc]

lemma Sim.missing (h : Sim s c) {tid : BitVec 32} (hm : s.Missing tid) : c.view tid = none := by
  rcases hm with hnone | ⟨o, cell, _, hc, hvalid⟩
  · rw [← h.view, State.view, hnone, Option.bind_none]
  · rw [h.inv.map.valid o cell hc] at hvalid
    cases hvalid

/-- A free mutex: the object is as it is. -/
lemma settled_free {cell : Cell τ} (hfree : cell.maptMutex = none) : s.settled cell = cell := by
  rw [State.settled, hfree]

lemma settled_mine {cell : Cell τ} (hmine : cell.maptMutex = some t) :
    s.settled cell = (s.pc t).settle cell := by
  rw [State.settled, hmine]

lemma seen_quiet (h : (s.pc t).pending s.heap = []) : s.seen t = s.returned t := by
  rw [State.seen, h, List.append_nil]

variable [DecidableEq τ]

/-- What an action changes of the objects. -/
lemma step_writes (hs : Step t s s') :
    s'.heap = s.heap ∨ ∃ o x, s'.heap = Function.update s.heap o x ∧ Writes s t o := by
  cases hs with
  | lockMapt hpc hc hfree => exact Or.inr ⟨_, _, rfl, .lock (by rw [hpc]; rfl) hc hfree⟩
  | act hpc hc _ => exact Or.inr ⟨_, _, rfl, .mine (by rw [hpc]; rfl)⟩
  | unlockMapt hpc hc => exact Or.inr ⟨_, _, rfl, .mine (by rw [hpc]; rfl)⟩
  | freeLock hpc hc hfree => exact Or.inr ⟨_, _, rfl, .lock (by rw [hpc]; rfl) hc hfree⟩
  | freeUnlock hpc hc => exact Or.inr ⟨_, _, rfl, .mine (by rw [hpc]; rfl)⟩
  | create hpc _ hnew => exact Or.inr ⟨_, _, rfl, .create hnew⟩
  | destroy hpc _ => exact Or.inr ⟨_, _, rfl, .destroy (by rw [hpc]; rfl)⟩
  | _ => exact Or.inl rfl

lemma step_pc (hs : Step t s s') (hu : u ≠ t) : s'.pc u = s.pc u := by
  cases hs <;> exact Function.update_of_ne hu _ _

lemma step_returned (hs : Step t s s') (hu : u ≠ t) : s'.returned u = s.returned u := by
  cases hs with
  | refuse => exact Function.update_of_ne hu _ _
  | unlockCtx => exact Function.update_of_ne hu _ _
  | unlockMapt => exact Function.update_of_ne hu _ _
  | _ => rfl

lemma step_sharedFd (hs : Step t s s') : s'.sharedFd = s.sharedFd := by
  cases hs <;> rfl

lemma step_heap (h : LockInv s) (hs : Step t s s') (hu : u ≠ t)
    (ho : (s.pc u).owned = some o ∨ (s.pc u).mapt = some o) : s'.heap o = s.heap o := by
  rcases step_writes hs with hsame | ⟨o₁, x, hx, hw⟩
  · rw [hsame]
  · have hne : o ≠ o₁ := by
      rintro rfl
      exact ho.elim (hw.not_others h hu).1 (hw.not_others h hu).2
    rw [hx, Function.update_of_ne hne]

/-- The other threads have seen the same calls. -/
lemma step_seen (h : LockInv s) (hs : Step t s s') (hu : u ≠ t) : s'.seen u = s.seen u := by
  rw [State.seen, State.seen, step_returned hs hu, step_pc hs hu]
  cases hpc : s.pc u with
  | inside tid call o p =>
    have ho := step_heap h hs hu (Or.inr (show (s.pc u).mapt = some o by rw [hpc]; rfl))
    simp only [Pc.pending, ho]
  | _ => rfl

/-- The other threads stay prepared. -/
lemma step_prepared (h : LockInv s) (hs : Step t s s') (hu : u ≠ t)
    (hprep : Prepared s (s.pc u)) : Prepared s' (s'.pc u) := by
  rw [step_pc hs hu]
  cases hpc : s.pc u with
  | insert tidAttr tid env o =>
    have ho := step_heap h hs hu (Or.inl (show (s.pc u).owned = some o by rw [hpc]; rfl))
    rw [hpc] at hprep
    simp only [Prepared, ho, step_sharedFd hs] at hprep ⊢
    exact hprep
  | create tidAttr tid mode env =>
    rw [hpc] at hprep
    simp only [Prepared, step_sharedFd hs] at hprep ⊢
    exact hprep
  | _ =>
    rw [hpc] at hprep
    exact hprep

lemma goto_pc {p : Pc} : (s.goto t p).pc t = p := Function.update_self ..

lemma ret_pc {op : Op} {out : Outcome} : (s.ret t op out).pc t = .idle := Function.update_self ..

lemma goto_seen {p : Pc} : (s.goto t p).seen t = s.returned t ++ p.pending s.heap := by
  rw [State.seen, goto_pc]
  rfl

lemma ret_seen {op : Op} {out : Outcome} : (s.ret t op out).seen t = s.returned t ++ [(op, out)] := by
  rw [State.seen, ret_pc]
  exact (List.append_nil _).trans (Function.update_self ..)

/-- An object that an action does not write comes to the same. -/
lemma content_same (hpc : ∀ u, u ≠ t → s'.pc u = s.pc u) (hheap : s'.heap o = s.heap o)
    (hsettle : s.HasMutex t o → ∀ c : Cell τ, (s'.pc t).settle c = (s.pc t).settle c) :
    s'.content o = s.content o := by
  rw [State.content, State.content, hheap]
  cases hc : s.heap o with
  | live c =>
    have hsettled : s'.settled c = s.settled c := by
      unfold State.settled
      cases hm : c.maptMutex with
      | none => rfl
      | some u =>
        by_cases hu : u = t
        · subst hu
          exact hsettle ((hasMutex_iff hc).mpr hm) c
        · simp only [hpc u hu]
    simp only [hsettled]
  | _ => rfl

/-- No object changes, and what is left of the call of `t` does not either. -/
lemma view_pc (hs : Step t s s') (hmap : s'.maptMap = s.maptMap) (hheap : s'.heap = s.heap)
    (hsettle : ∀ c : Cell τ, (s'.pc t).settle c = (s.pc t).settle c) : s'.view = s.view :=
  view_same hmap fun _ o _ =>
    content_same (fun _ hu => step_pc hs hu) (congrFun hheap o) fun _ => hsettle

/-- An object of the map is written. -/
lemma view_write (h : LockInv s) (hs : Step t s s') {tid : BitVec 32} {c' : Cell τ} {x : MaptObj × List PlbiRange}
    (hm : s.maptMap tid = some o) (hmap : s'.maptMap = s.maptMap)
    (hheap : s'.heap = Function.update s.heap o (.live c'))
    (hx : ((s'.settled c').obj, (s'.settled c').plbi) = x)
    (hother : ∀ o', o' ≠ o → ¬s.HasMutex t o') :
    s'.view = Function.update s.view tid (some x) := by
  funext tid'
  rw [State.view, hmap]
  by_cases htid : tid' = tid
  · subst htid
    rw [Function.update_self, hm, Option.bind_some, State.content, hheap, Function.update_self]
    exact congrArg some hx
  · rw [Function.update_of_ne htid, State.view]
    cases hm' : s.maptMap tid' with
    | none => rfl
    | some o' =>
      have ho : o' ≠ o := by
        rintro rfl
        exact htid (h.map.inj _ _ _ hm' hm)
      exact content_same (fun _ hu => step_pc hs hu) (by rw [hheap, Function.update_of_ne ho])
        fun hu => (hother o' ho hu).elim

/-- An action that changes nothing for the calls made one after another. -/
lemma Sim.silent (h : Sim s c) (hs : Step t s s') (hprep : Prepared s' (s'.pc t))
    (hview : s'.view = s.view) (hseen : s'.seen t = s.seen t) :
    Commits Op.exec Op.DriverOk Sim State.seen s s' c := by
  refine .silent ⟨lockInv_step h.inv hs, fun u => ?_, h.fd.trans (step_sharedFd hs).symm,
    hview.trans h.view⟩ (fun u => ?_)
  · by_cases hu : u = t
    · rw [hu]
      exact hprep
    · exact step_prepared h.inv hs hu (h.prepared u)
  · by_cases hu : u = t
    · rw [hu, hseen]
    · exact step_seen h.inv hs hu

/-- An action by which a call takes effect. -/
lemma Sim.commit (h : Sim s c) (hs : Step t s s') (hprep : Prepared s' (s'.pc t)) (op : Op)
    (hok : op.DriverOk c) (hfd : (op.exec c).2.ctx.sharedFd = c.ctx.sharedFd)
    (hview : s'.view = (op.exec c).2.view)
    (hseen : s'.seen t = s.seen t ++ [(op, (op.exec c).1)]) :
    Commits Op.exec Op.DriverOk Sim State.seen s s' c := by
  refine .commit t op hok ⟨lockInv_step h.inv hs, fun u => ?_,
    (hfd.trans h.fd).trans (step_sharedFd hs).symm, hview⟩ hseen (fun u hu => step_seen h.inv hs hu)
  by_cases hu : u = t
  · rw [hu]
    exact hprep
  · exact step_prepared h.inv hs hu (h.prepared u)

/-- An action either changes nothing for the calls made one after another, or makes one of them. -/
theorem step_commits (h : Sim s c) (hs : Step t s s') :
    Commits Op.exec Op.DriverOk Sim State.seen s s' c := by
  have hf := h.inv.fits t
  have hp := h.prepared t
  cases hs with
  | @refuse op out hpc hout =>
    have hstep : Step t s (s.ret t op out) := .refuse hpc hout
    have hexec := @exec_refused c op out hout
    refine h.commit hstep (by rw [ret_pc]; trivial) op ?_ (by rw [hexec]) ?_ ?_
    · cases op with
      | allocate tidAttr tid env =>
        intro hnone
        rw [hnone] at hout
        cases hout
      | _ => trivial
    · rw [hexec, ← h.view]
      exact view_pc hstep rfl rfl (by rw [ret_pc, hpc]; exact fun _ => rfl)
    · rw [ret_seen, hexec, seen_quiet (by rw [hpc]; rfl)]
  | @call call hpc hcall =>
    have hstep : Step t s (s.goto t (.lockCtx call)) := .call hpc hcall
    refine h.silent hstep (by rw [goto_pc]; exact hcall) ?_ ?_
    · exact view_pc hstep rfl rfl (by rw [goto_pc, hpc]; exact fun _ => rfl)
    · rw [goto_seen, State.seen, hpc]
      rfl
  | @lockCtx call hpc hfree =>
    have hstep : Step t s ((s.lock (some t)).goto t call.enter) := .lockCtx hpc hfree
    rw [hpc] at hp
    refine h.silent hstep ?_ ?_ ?_
    · rw [goto_pc]
      cases call with
      | api tid call => exact hp
      | free tid => trivial
      | allocate tidAttr tid mode => exact hp
    · refine view_pc hstep rfl rfl ?_
      rw [goto_pc, hpc]
      cases call <;> exact fun _ => rfl
    · rw [goto_seen, State.seen, hpc]
      cases call <;> rfl
  | @unlockCtx op out hpc =>
    have hstep : Step t s ((s.lock none).ret t op out) := .unlockCtx hpc
    refine h.silent hstep (by rw [ret_pc]; trivial) ?_ ?_
    · exact view_pc hstep rfl rfl (by rw [ret_pc, hpc]; exact fun _ => rfl)
    · rw [ret_seen, State.seen, hpc]
      rfl
  | @miss tid call hpc hmiss =>
    have hstep := Step.miss hpc hmiss
    rw [hpc] at hp
    have hexec := exec_miss hp (h.missing hmiss)
    refine h.commit hstep (by rw [goto_pc]; trivial) (.api tid call) trivial (by rw [hexec]) ?_ ?_
    · rw [hexec, ← h.view]
      exact view_pc hstep rfl rfl (by rw [goto_pc, hpc]; exact fun _ => rfl)
    · rw [goto_seen, hexec, seen_quiet (by rw [hpc]; rfl)]
      rfl
  | @lookup tid call o hpc hfound =>
    have hstep := Step.lookup hpc hfound
    rw [hpc] at hp
    refine h.silent hstep (by rw [goto_pc]; exact hp) ?_ ?_
    · exact view_pc hstep rfl rfl (by rw [goto_pc, hpc]; exact fun _ => rfl)
    · rw [goto_seen, State.seen, hpc]
      rfl
  | @lockMapt tid call o cell hpc hc hfree =>
    have hstep := Step.lockMapt hpc hc hfree
    rw [hpc] at hp hf
    have hm := hf.mapped tid o rfl
    have hfound := h.found hm hc
    rw [settled_free hfree] at hfound
    obtain ⟨hout, hfd, hview⟩ := exec_api hp hfound (h.inv.map.valid o cell hc)
    have hfinish := @finish_check τ call { cell with maptMutex := some t } hp
    refine h.commit hstep (by rw [goto_pc]; trivial) (.api tid call) trivial hfd ?_ ?_
    · rw [hview, ← h.view]
      refine view_write h.inv hstep hm rfl rfl ?_ (fun o' _ ho' => nomatch (hf.mutex o').mp ho')
      rw [settled_mine rfl, goto_pc, Pc.settle, hfinish]
    · rw [goto_seen, hout, seen_quiet (by rw [hpc]; rfl)]
      simp only [Pc.pending, heap_write_self, hfinish]
      rfl
  | @act tid call o p p' cell cell' hpc hc hact =>
    have hstep := Step.act hpc hc hact
    have hmine := (hasMutex_iff hc).mp (((h.inv.fits t).mutex o).mpr (by rw [hpc]; rfl))
    rw [hpc] at hf
    obtain ⟨hmutex, _, _⟩ := @Phase.act_frame τ o cell cell' tid call p p' hact
    have hfinish := Phase.act_finish hact
    have hm := hf.mapped tid o rfl
    refine h.silent hstep (by rw [goto_pc]; trivial) ?_ ?_
    · have hold : s.view tid = some ((p.finish call cell).2.obj, (p.finish call cell).2.plbi) := by
        rw [h.view, h.found hm hc, settled_mine hmine, hpc]
        rfl
      refine (view_write h.inv hstep hm rfl rfl ?_ fun o' ho ho' => ?_).trans
        (Function.update_eq_self_iff.mpr hold.symm)
      · rw [settled_mine (hmutex.trans hmine), goto_pc, Pc.settle, hfinish]
      · exact ho (Option.some.inj ((hf.mutex o').mp ho')).symm
    · rw [goto_seen, State.seen, hpc]
      simp only [Pc.pending, heap_write_self, hc, hfinish]
      rfl
  | @release tid call o k hpc =>
    have hstep := Step.release hpc
    refine h.silent hstep (by rw [goto_pc]; trivial) ?_ ?_
    · exact view_pc hstep rfl rfl (by rw [goto_pc, hpc]; exact fun _ => rfl)
    · rw [goto_seen, State.seen, hpc]
      rfl
  | @unlockMapt tid call o ret cell hpc hc =>
    have hstep := Step.unlockMapt hpc hc
    have hmine := (hasMutex_iff hc).mp (((h.inv.fits t).mutex o).mpr (by rw [hpc]; rfl))
    rw [hpc] at hf
    have hm := hf.mapped tid o rfl
    refine h.silent hstep (by rw [ret_pc]; trivial) ?_ ?_
    · have hold : s.view tid = some (cell.obj, cell.plbi) := by
        rw [h.view, h.found hm hc, settled_mine hmine, hpc]
        rfl
      refine (view_write h.inv hstep hm rfl rfl rfl fun o' ho ho' => ?_).trans
        (Function.update_eq_self_iff.mpr hold.symm)
      exact ho (Option.some.inj ((hf.mutex o').mp ho')).symm
    · rw [ret_seen, State.seen, hpc]
      simp only [Pc.pending, hc]
      rfl
  | @freeMiss tid hpc hmiss =>
    have hstep := Step.freeMiss hpc hmiss
    have hexec := exec_free_miss (h.missing hmiss)
    refine h.commit hstep (by rw [goto_pc]; trivial) (.free tid) trivial (by rw [hexec]) ?_ ?_
    · rw [hexec, ← h.view]
      exact view_pc hstep rfl rfl (by rw [goto_pc, hpc]; exact fun _ => rfl)
    · rw [goto_seen, hexec, seen_quiet (by rw [hpc]; rfl)]
      rfl
  | @freeLookup tid o hpc hfound =>
    have hstep := Step.freeLookup hpc hfound
    refine h.silent hstep (by rw [goto_pc]; trivial) ?_ ?_
    · exact view_pc hstep rfl rfl (by rw [goto_pc, hpc]; exact fun _ => rfl)
    · rw [goto_seen, State.seen, hpc]
      rfl
  | @freeLock tid o cell hpc hc hfree =>
    have hstep := Step.freeLock hpc hc hfree
    rw [hpc] at hf
    have hm := hf.mapped tid o rfl
    have hold : s.view tid = some (cell.obj, cell.plbi) := by
      rw [h.view, h.found hm hc, settled_free hfree]
    refine h.silent hstep (by rw [goto_pc]; trivial) ?_ ?_
    · refine (view_write h.inv hstep hm rfl rfl ?_ fun o' _ ho' => nomatch (hf.mutex o').mp ho').trans
        (Function.update_eq_self_iff.mpr hold.symm)
      rw [settled_mine rfl, goto_pc]
      rfl
    · rw [goto_seen, State.seen, hpc]
      rfl
  | @mapDel tid o hpc =>
    have hstep := Step.mapDel hpc
    have hmapt : (s.pc t).mapt = some o := by
      rw [hpc]
      rfl
    rw [hpc] at hf
    have hm := hf.mapped tid o rfl
    obtain ⟨cell, hc⟩ := h.inv.map.live tid o hm
    have hmine := (hasMutex_iff hc).mp (((h.inv.fits t).mutex o).mpr hmapt)
    have hfound := h.found hm hc
    rw [settled_mine hmine, hpc] at hfound
    obtain ⟨hout, hfd, hview⟩ := exec_free hfound (h.inv.map.valid o cell hc)
    refine h.commit hstep (by rw [goto_pc]; trivial) (.free tid) trivial hfd ?_ ?_
    · rw [hview, ← h.view]
      funext tid'
      by_cases htid : tid' = tid
      · rw [htid, Function.update_self]
        exact congrArg (Option.bind · _) setMap_self
      · rw [Function.update_of_ne htid]
        refine (congrArg (Option.bind · _) (setMap_of_ne htid)).trans ?_
        rw [State.view]
        refine congrArg (Option.bind _) (funext fun o' => ?_)
        refine content_same (fun _ hu => step_pc hstep hu) rfl fun _ => ?_
        rw [goto_pc, hpc]
        exact fun _ => rfl
    · rw [goto_seen, hout, seen_quiet (by rw [hpc]; rfl)]
      rfl
  | @freeUnlock tid o cell hpc hc =>
    have hstep := Step.freeUnlock hpc hc
    have hhidden := hf.owned o (by rw [hpc]; rfl)
    refine h.silent hstep (by rw [goto_pc]; trivial) ?_ ?_
    · refine view_same rfl fun tid' o' hm' => content_same (fun _ hu => step_pc hstep hu) ?_ fun _ => ?_
      · have ho : o' ≠ o := by
          rintro rfl
          exact hhidden.2 tid' hm'
        exact heap_write_of_ne ho
      · rw [goto_pc, hpc]
        exact fun _ => rfl
    · rw [goto_seen, State.seen, hpc]
      rfl
  | @getTidFailed tidAttr tid mode env hpc hret =>
    have hstep := Step.getTidFailed env hpc hret
    rw [hpc] at hp
    rw [← h.fd] at hret
    obtain ⟨hout, hfd, hview⟩ := exec_getTidFailed hp hret
    refine h.commit hstep (by rw [goto_pc]; trivial) (.allocate tidAttr tid env)
      (fun _ h0 => (hret h0).elim) hfd ?_ ?_
    · rw [hview, ← h.view]
      exact view_pc hstep rfl rfl (by rw [goto_pc, hpc]; exact fun _ => rfl)
    · rw [goto_seen, hout, seen_quiet (by rw [hpc]; rfl), h.fd]
      rfl
  | @getTid tidAttr tid mode env hpc hret hnew =>
    have hstep := Step.getTid env hpc hret hnew
    rw [hpc] at hp
    refine h.silent hstep (by rw [goto_pc]; exact ⟨hp, hret⟩) ?_ ?_
    · exact view_pc hstep rfl rfl (by rw [goto_pc, hpc]; exact fun _ => rfl)
    · rw [goto_seen, State.seen, hpc]
      rfl
  | @createFailed tidAttr tid mode env hpc hobj =>
    have hstep := Step.createFailed hpc hobj
    rw [hpc] at hp hf
    obtain ⟨hcall, hret⟩ := hp
    rw [← h.fd] at hret
    have hnone : c.view env.info.tid = none := by
      rw [← h.view, State.view, (hf.reserved _ rfl).2, Option.bind_none]
    obtain ⟨hout, hfd, hview⟩ := exec_createFailed hcall hret hobj
    refine h.commit hstep (by rw [goto_pc]; trivial) (.allocate tidAttr tid env)
      (fun _ _ => Option.map_eq_none_iff.mp hnone) hfd ?_ ?_
    · rw [hview, ← h.view]
      exact view_pc hstep rfl rfl (by rw [goto_pc, hpc]; exact fun _ => rfl)
    · rw [goto_seen, hout, seen_quiet (by rw [hpc]; rfl)]
      rfl
  | @create tidAttr tid mode env obj o hpc hobj hnew =>
    have hstep := Step.create hpc hobj hnew
    rw [hpc] at hp
    refine h.silent hstep ?_ ?_ ?_
    · rw [goto_pc]
      exact ⟨mode, obj, hp.1, hp.2, hobj, heap_write_self⟩
    · refine view_same rfl fun tid' o' hm' => content_same (fun _ hu => step_pc hstep hu) ?_ fun _ => ?_
      · have ho : o' ≠ o := by
          rintro rfl
          obtain ⟨cell, hc⟩ := h.inv.map.live tid' o' hm'
          rw [hnew] at hc
          cases hc
        exact heap_write_of_ne ho
      · rw [goto_pc, hpc]
        exact fun _ => rfl
    · rw [goto_seen, State.seen, hpc]
      rfl
  | @insertFailed tidAttr tid env o hpc hm => exact (hm (h.inv.insert_new hpc)).elim
  | @insert tidAttr tid env o hpc hm =>
    have hstep := Step.insert hpc hm
    rw [hpc] at hp
    obtain ⟨mode, obj, hcall, hret, hobj, hc⟩ := hp
    rw [← h.fd] at hret
    have hnone : c.view env.info.tid = none := by
      rw [← h.view, State.view, hm, Option.bind_none]
    obtain ⟨hout, hfd, hview⟩ := exec_insert hcall hret hobj hnone
    refine h.commit hstep (by rw [goto_pc]; trivial) (.allocate tidAttr tid env)
      (fun _ _ => Option.map_eq_none_iff.mp hnone) hfd ?_ ?_
    · rw [hview, ← h.view]
      funext tid'
      by_cases htid : tid' = env.info.tid
      · rw [htid, Function.update_self]
        refine (congrArg (Option.bind · _) setMap_self).trans ?_
        rw [Option.bind_some, State.content]
        simp only [State.goto, State.setMap, hc, State.settled]
      · rw [Function.update_of_ne htid]
        refine (congrArg (Option.bind · _) (setMap_of_ne htid)).trans ?_
        rw [State.view]
        refine congrArg (Option.bind _) (funext fun o' => ?_)
        refine content_same (fun _ hu => step_pc hstep hu) rfl fun _ => ?_
        rw [goto_pc, hpc]
        exact fun _ => rfl
    · rw [goto_seen, hout, seen_quiet (by rw [hpc]; rfl)]
      rfl
  | @destroy tid o op out cell hpc hc =>
    have hstep := Step.destroy hpc hc
    have hhidden := hf.owned o (by rw [hpc]; rfl)
    refine h.silent hstep (by rw [goto_pc]; trivial) ?_ ?_
    · refine view_same rfl fun tid' o' hm' => content_same (fun _ hu => step_pc hstep hu) ?_ fun _ => ?_
      · have ho : o' ≠ o := by
          rintro rfl
          exact hhidden.2 tid' hm'
        exact heap_write_of_ne ho
      · rw [goto_pc, hpc]
        exact fun _ => rfl
    · rw [goto_seen, State.seen, hpc]
      rfl
  | @putTid tid op out tids hpc htids =>
    have hstep := Step.putTid hpc htids
    refine h.silent hstep (by rw [goto_pc]; trivial) ?_ ?_
    · exact view_pc hstep rfl rfl (by rw [goto_pc, hpc]; exact fun _ => rfl)
    · rw [goto_seen, State.seen, hpc]
      rfl

end Views

section Main

variable {τ : Type} {fd : Int} {s : State τ} {t u : τ} {o : Nat}

/-- The thread waits for a mutex. -/
def State.Waits (s : State τ) (t : τ) : Prop :=
  match s.pc t with
  | .lockCtx _ => s.ctxMutex ≠ none
  | .lockMapt _ _ o => ∃ u, s.HasMutex u o
  | .freeLock _ o => ∃ u, s.HasMutex u o
  | _ => False

/-- The mutex of an object that nobody has is free. -/
lemma LockInv.mutex_free (h : LockInv s) (hm : ∃ tid, (s.pc t).mapped = some (tid, o))
    (hfree : ¬∃ u, s.HasMutex u o) : ∃ c, s.heap o = .live c ∧ c.maptMutex = none := by
  obtain ⟨tid, hm⟩ := hm
  obtain ⟨c, hc⟩ := h.live_of_mapped hm
  refine ⟨c, hc, ?_⟩
  rw [Option.eq_none_iff_forall_ne_some]
  exact fun u hu => hfree ⟨u, (hasMutex_iff hc).mpr hu⟩

lemma LockInv.lookup_cases (h : LockInv s) (tid : BitVec 32) :
    s.Missing tid ∨ ∃ o, s.Found tid o := by
  cases hm : s.maptMap tid with
  | none => exact Or.inl (Or.inl hm)
  | some o =>
    obtain ⟨c, hc⟩ := h.map.live tid o hm
    exact Or.inr ⟨o, hm, c, hc, h.map.valid o c hc⟩

/-- A thread in a call that does not wait for a mutex can go on. -/
theorem LockInv.can_step [DecidableEq τ] (h : LockInv s) (hpc : s.pc t ≠ .idle)
    (hwaits : ¬s.Waits t) : ∃ s', Step t s s' := by
  have hf := h.fits t
  unfold State.Waits at hwaits
  cases hp : s.pc t with
  | idle => exact (hpc hp).elim
  | lockCtx call =>
    rw [hp] at hwaits
    exact ⟨_, .lockCtx hp (not_not.mp hwaits)⟩
  | lookup tid call =>
    rcases h.lookup_cases tid with hmiss | ⟨o, hfound⟩
    · exact ⟨_, .miss hp hmiss⟩
    · exact ⟨_, .lookup hp hfound⟩
  | lockMapt tid call o =>
    rw [hp] at hwaits
    obtain ⟨c, hc, hfree⟩ := h.mutex_free ⟨tid, show (s.pc t).mapped = some (tid, o) by rw [hp]; rfl⟩
      hwaits
    exact ⟨_, .lockMapt hp hc hfree⟩
  | inside tid call o p =>
    obtain ⟨c, hc⟩ := h.live_of_mapped (show (s.pc t).mapped = some (tid, o) by rw [hp]; rfl)
    have hact : ∀ x, p.act call c = some x → ∃ s', Step t s s' :=
      fun x hx => ⟨_, .act hp hc hx⟩
    cases p with
    | check =>
      cases hcheck : call.check c.obj.info with
      | none => exact hact _ (by simp only [Phase.act, hcheck]; rfl)
      | some d => exact hact _ (by simp only [Phase.act, hcheck]; rfl)
    | imp d => exact hact _ rfl
    | unlockCtx k => exact ⟨_, .release hp⟩
    | tail k =>
      cases k with
      | update d lvl => exact hact _ rfl
      | plbi range ret => exact hact _ rfl
      | unlock ret => exact ⟨_, .unlockMapt hp hc⟩
  | freeLookup tid =>
    rcases h.lookup_cases tid with hmiss | ⟨o, hfound⟩
    · exact ⟨_, .freeMiss hp hmiss⟩
    · exact ⟨_, .freeLookup hp hfound⟩
  | freeLock tid o =>
    rw [hp] at hwaits
    obtain ⟨c, hc, hfree⟩ := h.mutex_free ⟨tid, show (s.pc t).mapped = some (tid, o) by rw [hp]; rfl⟩
      hwaits
    exact ⟨_, .freeLock hp hc hfree⟩
  | mapDel tid o => exact ⟨_, .mapDel hp⟩
  | freeUnlock tid o =>
    obtain ⟨⟨c, hc⟩, _⟩ := hf.owned o (by rw [hp]; rfl)
    exact ⟨_, .freeUnlock hp hc⟩
  | getTid tidAttr tid mode =>
    have hret : ummuGetTid s.sharedFd 1 ≠ 0 := by
      unfold ummuGetTid
      split_ifs
      · decide
      · decide
    exact ⟨_, .getTidFailed { openDriver [] with ioctl := 1 } hp hret⟩
  | create tidAttr tid mode env =>
    cases hobj : (createObj mode env.info env.create env.queue).1 with
    | none => exact ⟨_, .createFailed hp hobj⟩
    | some obj =>
      obtain ⟨n, hn⟩ := h.map.fresh
      exact ⟨_, .create hp hobj (hn n (le_refl n))⟩
  | insert tidAttr tid env o => exact ⟨_, .insert hp (h.insert_new hp)⟩
  | destroy tid o op out =>
    obtain ⟨⟨c, hc⟩, _⟩ := hf.owned o (by rw [hp]; rfl)
    exact ⟨_, .destroy hp hc⟩
  | putTid tid op out => exact ⟨_, .putTid hp (Or.inr rfl)⟩
  | unlockCtx op out => exact ⟨_, .unlockCtx hp⟩

/-- Who holds the mutex of an object waits for nothing. -/
lemma LockInv.holder_runs (h : LockInv s) (hu : s.HasMutex u o) : s.pc u ≠ .idle ∧ ¬s.Waits u := by
  have hmapt := ((h.fits u).mutex o).mp hu
  unfold State.Waits
  cases hp : s.pc u with
  | inside tid call o' p => exact ⟨(nomatch ·), id⟩
  | mapDel tid o' => exact ⟨(nomatch ·), id⟩
  | freeUnlock tid o' => exact ⟨(nomatch ·), id⟩
  | _ =>
    rw [hp] at hmapt
    cases hmapt

/-- Some thread in a call does not wait for a mutex. -/
lemma LockInv.runs (h : LockInv s) (hpc : s.pc t ≠ .idle) :
    ∃ u, s.pc u ≠ .idle ∧ ¬s.Waits u := by
  have hobject : (∃ u o, s.HasMutex u o) → ∃ u, s.pc u ≠ .idle ∧ ¬s.Waits u :=
    fun ⟨u, _, hu⟩ => ⟨u, h.holder_runs hu⟩
  have hinside : (∃ o u, s.HasMutex u o) → ∃ u, s.pc u ≠ .idle ∧ ¬s.Waits u :=
    fun ⟨o, u, hu⟩ => hobject ⟨u, o, hu⟩
  by_cases hwaits : s.Waits t
  · unfold State.Waits at hwaits
    cases hp : s.pc t with
    | lockCtx call =>
      rw [hp] at hwaits
      obtain ⟨u, hu⟩ := Option.ne_none_iff_exists'.mp hwaits
      have hctx := (h.fits u).ctx.mp hu
      by_cases hu' : s.Waits u
      · unfold State.Waits at hu'
        cases hpu : s.pc u with
        | lockMapt tid call o =>
          rw [hpu] at hu'
          exact hinside ⟨o, hu'⟩
        | freeLock tid o =>
          rw [hpu] at hu'
          exact hinside ⟨o, hu'⟩
        | lockCtx call =>
          rw [hpu] at hctx
          exact hctx.elim
        | _ =>
          rw [hpu] at hu'
          exact hu'.elim
      · refine ⟨u, fun hidle => ?_, hu'⟩
        rw [hidle] at hctx
        exact hctx
    | lockMapt tid call o =>
      rw [hp] at hwaits
      exact hinside ⟨o, hwaits⟩
    | freeLock tid o =>
      rw [hp] at hwaits
      exact hinside ⟨o, hwaits⟩
    | _ =>
      rw [hp] at hwaits
      exact hwaits.elim
  · exact ⟨t, hpc, hwaits⟩

/-- What the two kinds of mutexes give in a state that the threads reach. -/
structure LockSafe [DecidableEq τ] (fd : Int) (s : State τ) : Prop where
  /-- No action is on an object that was released. -/
  alive : ∀ t o, s.accesses t = some o → ∃ c, s.heap o = .live c
  /-- The actions of two calls on a tid do not mix. -/
  alone : ∀ t u tid, (s.pc t).busy = some tid → (s.pc u).busy = some tid → t = u
  /-- The calls return what they return one after another, and lead to the same tids. -/
  serial : ∃ hist c, Serial Op.exec Op.DriverOk ⟨⟨fd, fun _ => none, false⟩, fun _ => []⟩ hist c ∧
    (∀ t, seenBy hist t = s.seen t) ∧ s.view = c.view
  /-- `ummu_map_insert` meets no key. -/
  newKey : ∀ t tidAttr tid env o, s.pc t = .insert tidAttr tid env o →
    s.maptMap env.info.tid = none
  /-- While a call is under way, some thread in a call waits for no mutex and can go on. -/
  progress : ∀ t, s.pc t ≠ .idle → ∃ u, s.pc u ≠ .idle ∧ ¬s.Waits u ∧ ∃ s', Step u s s'

/-- Calls on tids are atomic and never use a released object, for any threads and interleaving. -/
theorem threads_lockSafe [DecidableEq τ] (h : ThreadReach fd s) : LockSafe fd s := by
  have hinv := threadReach_inv h
  refine ⟨fun t o => hinv.accesses_live, fun t u tid => hinv.busy_unique, ?_,
    fun t tidAttr tid env o => hinv.insert_new, fun t hpc => ?_⟩
  · have hstart : ∀ s : State τ, Start fd s →
        Sim s ⟨⟨fd, fun _ => none, false⟩, fun _ => []⟩ ∧ ∀ t, s.seen t = [] := by
      intro s hs
      have hstartInv := threadReach_inv (.start hs : ThreadReach fd s)
      obtain ⟨hfd, _, hmap, _, hpc, hreturned⟩ := hs
      refine ⟨⟨hstartInv, fun t => ?_, hfd.symm, funext fun tid => ?_⟩, fun t => ?_⟩
      · rw [hpc]
        trivial
      · rw [State.view, hmap]
        rfl
      · rw [State.seen, hpc, hreturned]
        rfl
    obtain ⟨hist, c, hserial, hsim, hseen⟩ := Reachable.serial h hstart
      (fun s s' c hsim ⟨t, hs⟩ => step_commits hsim hs)
    exact ⟨hist, c, hserial, hseen, hsim.view⟩
  · obtain ⟨u, hu, hwaits⟩ := hinv.runs hpc
    exact ⟨u, hu, hwaits, hinv.can_step hu hwaits⟩

end Main

section TwoThreads

/-- A program before the first call. -/
def idleState : State Bool := ⟨3, none, fun _ => none, fun _ => .fresh, ∅, fun _ => .idle, fun _ => []⟩

/-- One thread frees a tid, and another one waits to do the same. -/
def freeTwice : State Bool :=
  ((((idleState.goto true (.lockCtx (.free 7))).goto false (.lockCtx (.free 7))).lock
    (some true)).goto true (.freeLookup 7))

lemma freeTwice_reach : ThreadReach 3 freeTwice := by
  have h0 : ThreadReach 3 idleState :=
    .start ⟨rfl, rfl, fun _ => rfl, fun _ => rfl, fun _ => rfl, fun _ => rfl⟩
  have h1 : ThreadReach 3 (idleState.goto true (.lockCtx (.free 7))) :=
    .step h0 ⟨true, .call rfl trivial⟩
  have h2 : ThreadReach 3 ((idleState.goto true (.lockCtx (.free 7))).goto false
      (.lockCtx (.free 7))) := .step h1 ⟨false, .call rfl trivial⟩
  exact .step h2 ⟨true, Step.lockCtx (c := .free 7) rfl rfl⟩

theorem threads_lockSafe_twice : LockSafe 3 freeTwice := threads_lockSafe freeTwice_reach

end TwoThreads

end Ummu
