import Ummu.Threads

/-!
# The discipline of the mutexes

Which mutexes a thread holds and which objects and tids it works on, by the place where it stands.
-/

namespace Ummu

open Lib

namespace Pc

/-- The thread holds `ctx_mutex`. -/
def HoldsCtx : Pc → Prop
  | .idle => False
  | .lockCtx _ => False
  | .inside _ _ _ (.tail _) => False
  | _ => True

/-- The object whose mutex the thread holds. -/
def mapt : Pc → Option Nat
  | .inside _ _ o _ => some o
  | .mapDel _ o => some o
  | .freeUnlock _ o => some o
  | _ => none

/-- The tid that the thread looked up, with its object. -/
def mapped : Pc → Option (BitVec 32 × Nat)
  | .lockMapt tid _ o => some (tid, o)
  | .inside tid _ o _ => some (tid, o)
  | .freeLock tid o => some (tid, o)
  | .mapDel tid o => some (tid, o)
  | _ => none

/-- The object that is in no map, and known to the thread alone. -/
def owned : Pc → Option Nat
  | .freeUnlock _ o => some o
  | .destroy _ o _ _ => some o
  | .insert _ _ _ o => some o
  | _ => none

/-- The tid that the thread keeps from the driver without having it in the map. -/
def reserved : Pc → Option (BitVec 32)
  | .freeUnlock tid _ => some tid
  | .destroy tid _ _ _ => some tid
  | .putTid tid _ _ => some tid
  | .create _ _ _ env => some env.info.tid
  | .insert _ _ env _ => some env.info.tid
  | _ => none

/-- The tid on whose object, tables and queues the thread works. -/
def busy : Pc → Option (BitVec 32)
  | .inside tid _ _ _ => some tid
  | .mapDel tid _ => some tid
  | p => p.reserved

end Pc

section Locks

variable {τ : Type} {s s' s'' : State τ} {t u : τ} {p q : Pc} {o o' : Nat} {c c' : Cell τ}
  {tid : BitVec 32}

/-- An object that is in no map. -/
def State.Hidden (s : State τ) (o : Nat) : Prop :=
  (∃ c, s.heap o = .live c) ∧ ∀ tid, s.maptMap tid ≠ some o

/-- The thread `t` holds the mutex of the object. -/
def State.HasMutex (s : State τ) (t : τ) (o : Nat) : Prop :=
  ∃ c, s.heap o = .live c ∧ c.maptMutex = some t

/-- A thread at `p` holds what it should. -/
structure Fits (s : State τ) (t : τ) (p : Pc) : Prop where
  ctx : s.ctxMutex = some t ↔ p.HoldsCtx
  mutex : ∀ o, s.HasMutex t o ↔ p.mapt = some o
  mapped : ∀ tid o, p.mapped = some (tid, o) → s.maptMap tid = some o
  owned : ∀ o, p.owned = some o → s.Hidden o
  reserved : ∀ tid, p.reserved = some tid → tid ∈ s.inUse ∧ s.maptMap tid = none

/-- The objects of the map are alive, each belongs to one tid, and the driver knows the tid. -/
structure MapOk (s : State τ) : Prop where
  live : ∀ tid o, s.maptMap tid = some o → ∃ c, s.heap o = .live c
  inj : ∀ tid tid' o, s.maptMap tid = some o → s.maptMap tid' = some o → tid = tid'
  inUse : ∀ tid o, s.maptMap tid = some o → tid ∈ s.inUse
  valid : ∀ o c, s.heap o = .live c → c.obj.info.valid = true
  fresh : ∃ n, ∀ o, n ≤ o → s.heap o = .fresh

structure LockInv (s : State τ) : Prop where
  map : MapOk s
  fits : ∀ t, Fits s t (s.pc t)

/-- A thread that works on its own or knows an object of the map holds a mutex. -/
lemma Pc.owned_ctx (h : p.owned = some o) : p.HoldsCtx := by
  cases p <;> trivial

lemma Pc.reserved_ctx (h : p.reserved = some tid) : p.HoldsCtx := by
  cases p <;> trivial

lemma Pc.mapped_held (h : p.mapped = some (tid, o)) : p.HoldsCtx ∨ p.mapt = some o := by
  cases p with
  | lockMapt => exact Or.inl trivial
  | freeLock => exact Or.inl trivial
  | inside =>
    obtain ⟨rfl, rfl⟩ := Prod.mk.inj (Option.some.inj h)
    exact Or.inr rfl
  | mapDel => exact Or.inl trivial
  | _ => cases h

namespace LockInv

/-- One thread holds `ctx_mutex`. -/
lemma ctx_unique (h : LockInv s) (ht : (s.pc t).HoldsCtx) (hu : (s.pc u).HoldsCtx) : t = u :=
  Option.some.inj (((h.fits t).ctx.mpr ht).symm.trans ((h.fits u).ctx.mpr hu))

/-- One thread holds the mutex of an object. -/
lemma mapt_unique (h : LockInv s) (ht : (s.pc t).mapt = some o) (hu : (s.pc u).mapt = some o) :
    t = u := by
  obtain ⟨c, hc, hct⟩ := ((h.fits t).mutex o).mpr ht
  obtain ⟨c', hc', hcu⟩ := ((h.fits u).mutex o).mpr hu
  obtain rfl := Slot.live.inj (hc.symm.trans hc')
  exact Option.some.inj (hct.symm.trans hcu)

end LockInv

/-- The states before and after an action of `t`: what the other threads rely on. -/
structure Frame (t : τ) (s s' : State τ) : Prop where
  pc : ∀ u, u ≠ t → s'.pc u = s.pc u
  ctx : ∀ u, u ≠ t → (s'.ctxMutex = some u ↔ s.ctxMutex = some u)
  mutex : ∀ u, u ≠ t → ∀ o, s'.HasMutex u o ↔ s.HasMutex u o
  mapped : ∀ u, u ≠ t → ∀ tid o, (s.pc u).mapped = some (tid, o) → s.maptMap tid = some o →
    s'.maptMap tid = some o
  owned : ∀ u, u ≠ t → ∀ o, (s.pc u).owned = some o → s.Hidden o → s'.Hidden o
  reserved : ∀ u, u ≠ t → ∀ tid, (s.pc u).reserved = some tid →
    tid ∈ s.inUse ∧ s.maptMap tid = none → tid ∈ s'.inUse ∧ s'.maptMap tid = none

/-- An action keeps the invariant when its thread fits again and the others are not disturbed. -/
lemma LockInv.step (h : LockInv s) (hframe : Frame t s s') (hmap : MapOk s')
    (hfits : Fits s' t (s'.pc t)) : LockInv s' := by
  refine ⟨hmap, fun u => ?_⟩
  by_cases hu : u = t
  · rw [hu]
    exact hfits
  · have hold := h.fits u
    rw [hframe.pc u hu]
    exact ⟨(hframe.ctx u hu).trans hold.ctx, fun o => (hframe.mutex u hu o).trans (hold.mutex o),
      fun tid o hm => hframe.mapped u hu tid o hm (hold.mapped tid o hm),
      fun o ho => hframe.owned u hu o ho (hold.owned o ho),
      fun tid hr => hframe.reserved u hu tid hr (hold.reserved tid hr)⟩

/-! ### Frames -/

section Frames

lemma Frame.refl : Frame t s s :=
  ⟨fun _ _ => rfl, fun _ _ => Iff.rfl, fun _ _ _ => Iff.rfl, fun _ _ _ _ _ h => h,
    fun _ _ _ _ h => h, fun _ _ _ _ h => h⟩

lemma Frame.goto [DecidableEq τ] (h : Frame t s s') : Frame t s (s'.goto t p) :=
  ⟨fun u hu => (Function.update_of_ne hu _ _).trans (h.pc u hu), h.ctx, h.mutex, h.mapped, h.owned,
    h.reserved⟩

lemma Frame.ret [DecidableEq τ] (h : Frame t s s') {op : Op} {out : Outcome} : Frame t s (s'.ret t op out) :=
  ⟨fun u hu => (Function.update_of_ne hu _ _).trans (h.pc u hu), h.ctx, h.mutex, h.mapped, h.owned,
    h.reserved⟩

/-- `ctx_mutex` changes between its being free and `t`. -/
lemma Frame.lock {x : Option τ} (hs : s.ctxMutex = none ∨ s.ctxMutex = some t)
    (hx : x = none ∨ x = some t) : Frame t s (s.lock x) := by
  have hnot : ∀ y : Option τ, (y = none ∨ y = some t) → ∀ u, u ≠ t → y ≠ some u := by
    rintro y (rfl | rfl) u hu h
    · cases h
    · exact hu (Option.some.inj h).symm
  refine { Frame.refl with ctx := fun u hu => ?_ }
  exact ⟨fun h => (hnot x hx u hu h).elim, fun h => (hnot _ hs u hu h).elim⟩

lemma heap_write_self {x : Slot τ} : (s.write o x).heap o = x := Function.update_self ..

lemma heap_write_of_ne {x : Slot τ} (h : o' ≠ o) : (s.write o x).heap o' = s.heap o' :=
  Function.update_of_ne h ..

lemma hasMutex_write {x : Slot τ} : (s.write o x).HasMutex u o' ↔
    if o' = o then ∃ c, x = .live c ∧ c.maptMutex = some u else s.HasMutex u o' := by
  unfold State.HasMutex
  by_cases ho : o' = o
  · subst ho
    rw [if_pos rfl, heap_write_self]
  · rw [if_neg ho, heap_write_of_ne ho]

lemma hasMutex_iff (hc : s.heap o = .live c) : s.HasMutex u o ↔ c.maptMutex = some u := by
  constructor
  · rintro ⟨c', hc', hu⟩
    rwa [Slot.live.inj (hc.symm.trans hc')]
  · exact fun h => ⟨c, hc, h⟩

lemma hidden_write {o₁ : Nat} (h : s.Hidden o₁) : (s.write o (.live c)).Hidden o₁ := by
  refine ⟨?_, h.2⟩
  obtain ⟨c₁, hc₁⟩ := h.1
  by_cases ho : o₁ = o
  · exact ⟨c, ho ▸ heap_write_self⟩
  · exact ⟨c₁, (heap_write_of_ne ho).trans hc₁⟩

/-- An object changes, its mutex between its being free and `t` only. -/
lemma Frame.write (hc : s.heap o = .live c)
    (hmutex : ∀ u, u ≠ t → (c'.maptMutex = some u ↔ c.maptMutex = some u)) :
    Frame t s (s.write o (.live c')) := by
  refine { Frame.refl with
    mutex := fun u hu o' => ?_
    owned := fun u hu o' _ h => hidden_write h }
  rw [hasMutex_write]
  by_cases ho : o' = o
  · subst ho
    rw [if_pos rfl, hasMutex_iff hc, ← hmutex u hu]
    constructor
    · rintro ⟨c₁, hc₁, h⟩
      rwa [Slot.live.inj hc₁]
    · exact fun h => ⟨c', rfl, h⟩
  · rw [if_neg ho]

/-- While `t` holds `ctx_mutex`, no other thread owns an object or keeps a tid. -/
lemma LockInv.alone (h : LockInv s) (ht : (s.pc t).HoldsCtx) (hu : u ≠ t) :
    (s.pc u).owned = none ∧ (s.pc u).reserved = none := by
  constructor
  · rw [Option.eq_none_iff_forall_ne_some]
    exact fun o ho => hu (h.ctx_unique (Pc.owned_ctx ho) ht)
  · rw [Option.eq_none_iff_forall_ne_some]
    exact fun tid hr => hu (h.ctx_unique (Pc.reserved_ctx hr) ht)

/-- What others own is not in question while `t` holds `ctx_mutex`. -/
lemma LockInv.frame (h : LockInv s) (ht : (s.pc t).HoldsCtx) (hpc : s'.pc = s.pc)
    (hctx : s'.ctxMutex = s.ctxMutex)
    (hmutex : ∀ u, u ≠ t → ∀ o, s'.HasMutex u o ↔ s.HasMutex u o)
    (hmapped : ∀ u, u ≠ t → ∀ tid o, (s.pc u).mapped = some (tid, o) → s.maptMap tid = some o →
      s'.maptMap tid = some o) : Frame t s s' := by
  refine ⟨fun u _ => by rw [hpc], fun u _ => by rw [hctx], hmutex, hmapped, fun u hu o ho => ?_,
    fun u hu tid hr => ?_⟩
  · rw [(h.alone ht hu).1] at ho
    cases ho
  · rw [(h.alone ht hu).2] at hr
    cases hr

end Frames

/-! ### The map -/

section Map

/-- An object that is there changes. -/
lemma MapOk.write (h : MapOk s) (hc : s.heap o = .live c) (hvalid : c'.obj.info.valid = true) :
    MapOk (s.write o (.live c')) := by
  obtain ⟨n, hn⟩ := h.fresh
  refine ⟨fun tid o₁ hm => ?_, h.inj, h.inUse, fun o₁ c₁ hc₁ => ?_, n, fun o₁ ho₁ => ?_⟩
  · obtain ⟨c₁, hc₁⟩ := h.live tid o₁ hm
    by_cases ho : o₁ = o
    · exact ⟨c', ho ▸ heap_write_self⟩
    · exact ⟨c₁, (heap_write_of_ne ho).trans hc₁⟩
  · by_cases ho : o₁ = o
    · rw [ho, heap_write_self] at hc₁
      rwa [← Slot.live.inj hc₁]
    · rw [heap_write_of_ne ho] at hc₁
      exact h.valid o₁ c₁ hc₁
  · have ho : o₁ ≠ o := by
      rintro rfl
      rw [hn o₁ ho₁] at hc
      cases hc
    rw [heap_write_of_ne ho, hn o₁ ho₁]

/-- A new object. -/
lemma MapOk.create (h : MapOk s) (ho : s.heap o = .fresh) (hvalid : c.obj.info.valid = true) :
    MapOk (s.write o (.live c)) := by
  obtain ⟨n, hn⟩ := h.fresh
  refine ⟨fun tid o₁ hm => ?_, h.inj, h.inUse, fun o₁ c₁ hc₁ => ?_, max n (o + 1), fun o₁ ho₁ => ?_⟩
  · obtain ⟨c₁, hc₁⟩ := h.live tid o₁ hm
    have hne : o₁ ≠ o := by
      rintro rfl
      rw [ho] at hc₁
      cases hc₁
    exact ⟨c₁, (heap_write_of_ne hne).trans hc₁⟩
  · by_cases hne : o₁ = o
    · rw [hne, heap_write_self] at hc₁
      rwa [← Slot.live.inj hc₁]
    · rw [heap_write_of_ne hne] at hc₁
      exact h.valid o₁ c₁ hc₁
  · have hne : o₁ ≠ o := by omega
    rw [heap_write_of_ne hne, hn o₁ (by omega)]

/-- An object that no tid has is released. -/
lemma MapOk.destroy (h : MapOk s) (hc : s.heap o = .live c) (ho : ∀ tid, s.maptMap tid ≠ some o) :
    MapOk (s.write o .released) := by
  obtain ⟨n, hn⟩ := h.fresh
  refine ⟨fun tid o₁ hm => ?_, h.inj, h.inUse, fun o₁ c₁ hc₁ => ?_, n, fun o₁ ho₁ => ?_⟩
  · obtain ⟨c₁, hc₁⟩ := h.live tid o₁ hm
    have hne : o₁ ≠ o := by
      rintro rfl
      exact ho tid hm
    exact ⟨c₁, (heap_write_of_ne hne).trans hc₁⟩
  · by_cases hne : o₁ = o
    · rw [hne, heap_write_self] at hc₁
      cases hc₁
    · rw [heap_write_of_ne hne] at hc₁
      exact h.valid o₁ c₁ hc₁
  · have hne : o₁ ≠ o := by
      rintro rfl
      rw [hn o₁ ho₁] at hc
      cases hc
    rw [heap_write_of_ne hne, hn o₁ ho₁]

lemma setMap_self {x : Option Nat} : (s.setMap tid x).maptMap tid = x := Function.update_self ..

lemma setMap_of_ne {tid' : BitVec 32} {x : Option Nat} (h : tid' ≠ tid) :
    (s.setMap tid x).maptMap tid' = s.maptMap tid' := Function.update_of_ne h ..

/-- What the map has after a tid was taken out of it, it had before. -/
lemma of_setMap_none {tid' : BitVec 32} (h : (s.setMap tid none).maptMap tid' = some o) :
    tid' ≠ tid ∧ s.maptMap tid' = some o := by
  by_cases htid : tid' = tid
  · rw [htid, setMap_self] at h
    cases h
  · rw [setMap_of_ne htid] at h
    exact ⟨htid, h⟩

lemma MapOk.del (h : MapOk s) : MapOk (s.setMap tid none) :=
  ⟨fun tid₁ o₁ hm => h.live tid₁ o₁ (of_setMap_none hm).2,
    fun tid₁ tid₂ o₁ h₁ h₂ => h.inj tid₁ tid₂ o₁ (of_setMap_none h₁).2 (of_setMap_none h₂).2,
    fun tid₁ o₁ hm => h.inUse tid₁ o₁ (of_setMap_none hm).2, h.valid, h.fresh⟩

/-- A tid that the driver handed out gets an object that no tid has. -/
lemma MapOk.insert (h : MapOk s) (ho : s.Hidden o) (huse : tid ∈ s.inUse) :
    MapOk (s.setMap tid (some o)) := by
  have hcases : ∀ tid₁ o₁, (s.setMap tid (some o)).maptMap tid₁ = some o₁ →
      (tid₁ = tid ∧ o₁ = o) ∨ (tid₁ ≠ tid ∧ s.maptMap tid₁ = some o₁) := by
    intro tid₁ o₁ hm
    by_cases htid : tid₁ = tid
    · rw [htid, setMap_self] at hm
      exact Or.inl ⟨htid, (Option.some.inj hm).symm⟩
    · rw [setMap_of_ne htid] at hm
      exact Or.inr ⟨htid, hm⟩
  refine ⟨fun tid₁ o₁ hm => ?_, fun tid₁ tid₂ o₁ h₁ h₂ => ?_, fun tid₁ o₁ hm => ?_, h.valid, h.fresh⟩
  · rcases hcases tid₁ o₁ hm with ⟨_, rfl⟩ | ⟨_, hm'⟩
    · exact ho.1
    · exact h.live tid₁ o₁ hm'
  · rcases hcases tid₁ o₁ h₁ with ⟨rfl, rfl⟩ | ⟨_, h₁'⟩
    · rcases hcases tid₂ o₁ h₂ with ⟨rfl, _⟩ | ⟨_, h₂'⟩
      · rfl
      · exact (ho.2 tid₂ h₂').elim
    · rcases hcases tid₂ o₁ h₂ with ⟨rfl, rfl⟩ | ⟨_, h₂'⟩
      · exact (ho.2 tid₁ h₁').elim
      · exact h.inj tid₁ tid₂ o₁ h₁' h₂'
  · rcases hcases tid₁ o₁ hm with ⟨rfl, _⟩ | ⟨_, hm'⟩
    · exact huse
    · exact h.inUse tid₁ o₁ hm'

end Map

/-! ### Actions -/

section Steps

/-- A thread takes the mutex of an object. -/
lemma hasMutex_lock (hnone : ∀ o, ¬s.HasMutex t o) (o' : Nat) :
    (s.write o (.live { c with maptMutex := some t })).HasMutex t o' ↔ some o = some o' := by
  rw [hasMutex_write]
  by_cases ho : o' = o
  · rw [if_pos ho, ho]
    exact ⟨fun _ => rfl, fun _ => ⟨_, rfl, rfl⟩⟩
  · rw [if_neg ho]
    exact ⟨fun h => (hnone o' h).elim, fun h => (ho (Option.some.inj h).symm).elim⟩

/-- A thread gives the mutex of an object back. -/
lemma hasMutex_unlock (hold : ∀ o', s.HasMutex t o' ↔ some o = some o') (o' : Nat) :
    (s.write o (.live { c with maptMutex := none })).HasMutex t o' ↔ (none : Option Nat) = some o' := by
  rw [hasMutex_write]
  by_cases ho : o' = o
  · rw [if_pos ho]
    constructor
    · rintro ⟨c', hc', h⟩
      rw [← Slot.live.inj hc'] at h
      cases h
    · exact (nomatch ·)
  · rw [if_neg ho]
    constructor
    · exact fun h => (ho (Option.some.inj ((hold o').mp h)).symm).elim
    · exact (nomatch ·)

lemma hasMutex_same (hc : s.heap o = .live c) (hmutex : c'.maptMutex = c.maptMutex) (o' : Nat) :
    (s.write o (.live c')).HasMutex u o' ↔ s.HasMutex u o' := by
  rw [hasMutex_write]
  by_cases ho : o' = o
  · rw [if_pos ho, ho, hasMutex_iff hc, ← hmutex]
    constructor
    · rintro ⟨c₁, hc₁, h⟩
      rwa [Slot.live.inj hc₁]
    · exact fun h => ⟨c', rfl, h⟩
  · rw [if_neg ho]

/-- What the actions on the object of a tid leave alone. -/
lemma Phase.act_frame {call : ApiCall} {p p' : Phase} (h : p.act call c = some (p', c')) :
    c'.maptMutex = c.maptMutex ∧ c'.obj.info.valid = c.obj.info.valid ∧
      (((Pc.inside tid call o p).HoldsCtx) ↔ (Pc.inside tid call o p').HoldsCtx) := by
  cases p with
  | check =>
    simp only [Phase.act] at h
    cases hcheck : call.check c.obj.info with
    | none =>
      rw [hcheck] at h
      obtain ⟨rfl, rfl⟩ := Prod.mk.inj (Option.some.inj h)
      exact ⟨rfl, rfl, Iff.rfl⟩
    | some d =>
      rw [hcheck] at h
      obtain ⟨rfl, rfl⟩ := Prod.mk.inj (Option.some.inj h)
      exact ⟨rfl, rfl, Iff.rfl⟩
  | imp d =>
    obtain ⟨rfl, rfl⟩ := Prod.mk.inj (Option.some.inj h)
    exact ⟨rfl, imp_valid call, Iff.rfl⟩
  | unlockCtx k => cases h
  | tail k =>
    cases k with
    | update d lvl =>
      obtain ⟨rfl, rfl⟩ := Prod.mk.inj (Option.some.inj h)
      exact ⟨rfl, update_valid call, Iff.rfl⟩
    | plbi range ret =>
      obtain ⟨rfl, rfl⟩ := Prod.mk.inj (Option.some.inj h)
      exact ⟨rfl, rfl, Iff.rfl⟩
    | unlock ret => cases h

lemma createObj_valid {mode : MaptMode} {info : DriverInfo} {env : CreateEnv} {queueEnv : QueueEnv}
    {obj : MaptObj} (h : (createObj mode info env queueEnv).1 = some obj) :
    obj.info.valid = true := by
  simp only [createObj] at h
  split_ifs at h
  obtain ⟨base, _, rfl⟩ := Option.map_eq_some_iff.mp h
  rfl

/-- The mutex of an object that is in no map is in no other thread's hand. -/
lemma LockInv.hidden_mutex (h : LockInv s) (ht : (s.pc t).HoldsCtx) (ho : ∀ tid, s.maptMap tid ≠ some o)
    (hu : u ≠ t) : ¬s.HasMutex u o := by
  intro hmutex
  have hmapt := ((h.fits u).mutex o).mp hmutex
  cases hpc : s.pc u with
  | inside tid call o₁ p =>
    have hmapped : (s.pc u).mapped = some (tid, o) := by
      rw [hpc] at hmapt ⊢
      rw [Pc.mapped, Option.some.inj hmapt]
    exact ho tid ((h.fits u).mapped tid o hmapped)
  | mapDel => exact hu (h.ctx_unique (by rw [hpc]; trivial) ht)
  | freeUnlock => exact hu (h.ctx_unique (by rw [hpc]; trivial) ht)
  | _ =>
    rw [hpc] at hmapt
    cases hmapt

variable [DecidableEq τ]

lemma LockInv.goto (h : LockInv s) (hframe : Frame t s s') (hmap : MapOk s') (hfits : Fits s' t p) :
    LockInv (s'.goto t p) := by
  refine h.step hframe.goto ⟨hmap.live, hmap.inj, hmap.inUse, hmap.valid, hmap.fresh⟩ ?_
  have hpc : (s'.goto t p).pc t = p := Function.update_self ..
  rw [hpc]
  exact ⟨hfits.ctx, hfits.mutex, hfits.mapped, hfits.owned, hfits.reserved⟩

lemma LockInv.ret (h : LockInv s) (hframe : Frame t s s') (hmap : MapOk s')
    (hfits : Fits s' t .idle) {op : Op} {out : Outcome} : LockInv (s'.ret t op out) := by
  refine h.step hframe.ret ⟨hmap.live, hmap.inj, hmap.inUse, hmap.valid, hmap.fresh⟩ ?_
  have hpc : (s'.ret t op out).pc t = .idle := Function.update_self ..
  rw [hpc]
  exact ⟨hfits.ctx, hfits.mutex, hfits.mapped, hfits.owned, hfits.reserved⟩

/-- Every action keeps the discipline of the mutexes. -/
theorem lockInv_step (h : LockInv s) (hs : Step t s s') : LockInv s' := by
  have hf := h.fits t
  have hwrite {o : Nat} {c : Cell τ} (hc : s.heap o = .live c) (m : Option τ) :
      MapOk (s.write o (.live { c with maptMutex := m })) := h.map.write hc (h.map.valid o c hc)
  cases hs with
  | refuse hpc hout =>
    rw [hpc] at hf
    exact h.ret .refl h.map hf
  | call hpc hop =>
    rw [hpc] at hf
    exact h.goto .refl h.map ⟨hf.ctx, hf.mutex, hf.mapped, hf.owned, hf.reserved⟩
  | @lockCtx call hpc hfree =>
    rw [hpc] at hf
    refine h.goto (.lock (Or.inl hfree) (Or.inr rfl))
      ⟨h.map.live, h.map.inj, h.map.inUse, h.map.valid, h.map.fresh⟩ ?_
    cases call with
    | api => exact ⟨iff_of_true rfl trivial, hf.mutex, hf.mapped, hf.owned, hf.reserved⟩
    | free => exact ⟨iff_of_true rfl trivial, hf.mutex, hf.mapped, hf.owned, hf.reserved⟩
    | allocate => exact ⟨iff_of_true rfl trivial, hf.mutex, hf.mapped, hf.owned, hf.reserved⟩
  | unlockCtx hpc =>
    rw [hpc] at hf
    exact h.ret (.lock (Or.inr (hf.ctx.mpr trivial)) (Or.inl rfl))
      ⟨h.map.live, h.map.inj, h.map.inUse, h.map.valid, h.map.fresh⟩
      ⟨iff_of_false (nomatch ·) id, hf.mutex, hf.mapped, hf.owned, hf.reserved⟩
  | miss hpc hmiss =>
    rw [hpc] at hf
    exact h.goto .refl h.map ⟨hf.ctx, hf.mutex, hf.mapped, hf.owned, hf.reserved⟩
  | lookup hpc hfound =>
    rw [hpc] at hf
    refine h.goto .refl h.map ⟨hf.ctx, hf.mutex, fun tid o ho => ?_, hf.owned, hf.reserved⟩
    obtain ⟨rfl, rfl⟩ := Prod.mk.inj (Option.some.inj ho)
    exact hfound.1
  | lockMapt hpc hc hfree =>
    rw [hpc] at hf
    have hnone : ∀ o, ¬s.HasMutex t o := fun o ho => nomatch (hf.mutex o).mp ho
    refine h.goto (.write hc fun u hu => ?_) (hwrite hc _)
      ⟨hf.ctx, hasMutex_lock hnone, hf.mapped, (nomatch ·, ·), hf.reserved⟩
    exact iff_of_false (fun he => hu (Option.some.inj he).symm) (by rw [hfree]; exact (nomatch ·))
  | act hpc hc hact =>
    rw [hpc] at hf
    obtain ⟨hmutex, hvalid, hctx⟩ := Phase.act_frame hact
    refine h.goto (.write hc fun u _ => by rw [hmutex]) (h.map.write hc ?_)
      ⟨hf.ctx.trans hctx, fun o => (hasMutex_same hc hmutex o).trans (hf.mutex o), hf.mapped,
        (nomatch ·, ·), hf.reserved⟩
    exact hvalid.trans (h.map.valid _ _ hc)
  | release hpc =>
    rw [hpc] at hf
    exact h.goto (.lock (Or.inr (hf.ctx.mpr trivial)) (Or.inl rfl))
      ⟨h.map.live, h.map.inj, h.map.inUse, h.map.valid, h.map.fresh⟩
      ⟨iff_of_false (nomatch ·) id, hf.mutex, hf.mapped, hf.owned, hf.reserved⟩
  | unlockMapt hpc hc =>
    rw [hpc] at hf
    have hmine := ((hasMutex_iff hc).mp ((hf.mutex _).mpr rfl))
    refine h.ret (.write hc fun u hu => ?_) (hwrite hc _)
      ⟨hf.ctx, hasMutex_unlock hf.mutex, (nomatch ·, ·, ·), (nomatch ·, ·), hf.reserved⟩
    exact iff_of_false (nomatch ·) (fun he => hu (Option.some.inj (he.symm.trans hmine)))
  | freeMiss hpc hmiss =>
    rw [hpc] at hf
    exact h.goto .refl h.map ⟨hf.ctx, hf.mutex, hf.mapped, hf.owned, hf.reserved⟩
  | freeLookup hpc hfound =>
    rw [hpc] at hf
    refine h.goto .refl h.map ⟨hf.ctx, hf.mutex, fun tid o ho => ?_, hf.owned, hf.reserved⟩
    obtain ⟨rfl, rfl⟩ := Prod.mk.inj (Option.some.inj ho)
    exact hfound.1
  | freeLock hpc hc hfree =>
    rw [hpc] at hf
    have hnone : ∀ o, ¬s.HasMutex t o := fun o ho => nomatch (hf.mutex o).mp ho
    refine h.goto (.write hc fun u hu => ?_) (hwrite hc _)
      ⟨hf.ctx, hasMutex_lock hnone, hf.mapped, (nomatch ·, ·), hf.reserved⟩
    exact iff_of_false (fun he => hu (Option.some.inj he).symm) (by rw [hfree]; exact (nomatch ·))
  | @mapDel tid o hpc =>
    have hctx : (s.pc t).HoldsCtx := by
      rw [hpc]
      trivial
    have hmapt : (s.pc t).mapt = some o := by
      rw [hpc]
      rfl
    rw [hpc] at hf
    have hm := hf.mapped tid o rfl
    have hother : ∀ u, u ≠ t → ∀ tid' o', (s.pc u).mapped = some (tid', o') →
        s.maptMap tid' = some o' → (s.setMap tid none).maptMap tid' = some o' := by
      intro u hu tid' o' hmapped hm'
      have hne : tid' ≠ tid := by
        rintro rfl
        obtain rfl := Option.some.inj (hm.symm.trans hm')
        rcases Pc.mapped_held hmapped with hheld | hheld
        · exact hu (h.ctx_unique hheld hctx)
        · exact hu (h.mapt_unique hheld hmapt)
      rwa [setMap_of_ne hne]
    refine h.goto (h.frame hctx rfl rfl (fun _ _ _ => Iff.rfl) hother) h.map.del
      ⟨hf.ctx, hf.mutex, (nomatch ·, ·, ·), fun o' ho' => ?_, fun tid' htid' => ?_⟩
    · obtain rfl := Option.some.inj ho'
      refine ⟨h.map.live tid o hm, fun tid' hm' => ?_⟩
      obtain ⟨hne, hold⟩ := of_setMap_none hm'
      exact hne (h.map.inj tid' tid o hold hm)
    · obtain rfl := Option.some.inj htid'
      exact ⟨h.map.inUse tid o hm, setMap_self⟩
  | @freeUnlock tid o c hpc hc =>
    rw [hpc] at hf
    have hmine := ((hasMutex_iff hc).mp ((hf.mutex _).mpr rfl))
    refine h.goto (.write hc fun u hu => ?_) (hwrite hc _)
      ⟨hf.ctx, hasMutex_unlock hf.mutex, (nomatch ·, ·, ·), fun o' ho' => hidden_write (hf.owned o' ho'),
        hf.reserved⟩
    exact iff_of_false (nomatch ·) (fun he => hu (Option.some.inj (he.symm.trans hmine)))
  | getTidFailed env hpc hret =>
    rw [hpc] at hf
    exact h.goto .refl h.map ⟨hf.ctx, hf.mutex, hf.mapped, hf.owned, hf.reserved⟩
  | getTid env hpc hret hnew =>
    have hctx : (s.pc t).HoldsCtx := by
      rw [hpc]
      trivial
    rw [hpc] at hf
    have hnone : s.maptMap env.info.tid = none := by
      rw [Option.eq_none_iff_forall_ne_some]
      exact fun o ho => hnew (h.map.inUse _ o ho)
    refine h.goto (h.frame hctx rfl rfl (fun _ _ _ => Iff.rfl) fun _ _ _ _ _ hm => hm)
      ⟨h.map.live, h.map.inj, fun tid o ho => Set.mem_insert_of_mem _ (h.map.inUse tid o ho),
        h.map.valid, h.map.fresh⟩
      ⟨hf.ctx, hf.mutex, hf.mapped, hf.owned, fun tid htid => ?_⟩
    obtain rfl := Option.some.inj htid
    exact ⟨Set.mem_insert _ _, hnone⟩
  | createFailed hpc hobj =>
    rw [hpc] at hf
    exact h.goto .refl h.map ⟨hf.ctx, hf.mutex, hf.mapped, hf.owned, hf.reserved⟩
  | @create tidAttr tid mode env obj o hpc hobj hnew =>
    have hctx : (s.pc t).HoldsCtx := by
      rw [hpc]
      trivial
    rw [hpc] at hf
    have hmutex : ∀ u o', (s.write o (.live ⟨obj, [], none⟩)).HasMutex u o' ↔ s.HasMutex u o' := by
      intro u o'
      rw [hasMutex_write]
      by_cases ho : o' = o
      · rw [if_pos ho, ho]
        refine iff_of_false ?_ ?_
        · rintro ⟨c, hc, hu⟩
          rw [← Slot.live.inj hc] at hu
          cases hu
        · rintro ⟨c, hc, _⟩
          rw [hnew] at hc
          cases hc
      · rw [if_neg ho]
    refine h.goto (h.frame hctx rfl rfl (fun u _ => hmutex u) fun _ _ _ _ _ hm => hm)
      (h.map.create hnew (createObj_valid hobj))
      ⟨hf.ctx, fun o' => (hmutex t o').trans (hf.mutex o'), hf.mapped, fun o' ho' => ?_, hf.reserved⟩
    obtain rfl := Option.some.inj ho'
    refine ⟨⟨_, heap_write_self⟩, fun tid' hm => ?_⟩
    obtain ⟨c, hc⟩ := h.map.live tid' o hm
    rw [hnew] at hc
    cases hc
  | insertFailed hpc hm =>
    rw [hpc] at hf
    exact h.goto .refl h.map ⟨hf.ctx, hf.mutex, hf.mapped, hf.owned, hf.reserved⟩
  | @insert tidAttr tid env o hpc hm =>
    have hctx : (s.pc t).HoldsCtx := by
      rw [hpc]
      trivial
    rw [hpc] at hf
    have hother : ∀ u, u ≠ t → ∀ tid' o', (s.pc u).mapped = some (tid', o') →
        s.maptMap tid' = some o' → (s.setMap env.info.tid (some o)).maptMap tid' = some o' := by
      intro u _ tid' o' _ hm'
      have hne : tid' ≠ env.info.tid := by
        intro htid
        rw [htid, hm] at hm'
        cases hm'
      rwa [setMap_of_ne hne]
    exact h.goto (h.frame hctx rfl rfl (fun _ _ _ => Iff.rfl) hother)
      (h.map.insert (hf.owned o rfl) (hf.reserved _ rfl).1)
      ⟨hf.ctx, hf.mutex, (nomatch ·, ·, ·), (nomatch ·, ·), (nomatch ·, ·)⟩
  | @destroy tid o op out c hpc hc =>
    have hctx : (s.pc t).HoldsCtx := by
      rw [hpc]
      trivial
    rw [hpc] at hf
    have hhidden := hf.owned o rfl
    have hno : ∀ u, ¬s.HasMutex u o := by
      intro u hu
      by_cases hut : u = t
      · subst hut
        cases (hf.mutex o).mp hu
      · exact h.hidden_mutex hctx hhidden.2 hut hu
    have hmutex : ∀ u o', (s.write o .released).HasMutex u o' ↔ s.HasMutex u o' := by
      intro u o'
      rw [hasMutex_write]
      by_cases ho : o' = o
      · rw [if_pos ho, ho]
        refine iff_of_false ?_ (hno u)
        rintro ⟨c', hc', _⟩
        cases hc'
      · rw [if_neg ho]
    exact h.goto (h.frame hctx rfl rfl (fun u _ => hmutex u) fun _ _ _ _ _ hm => hm)
      (h.map.destroy hc hhidden.2)
      ⟨hf.ctx, fun o' => (hmutex t o').trans (hf.mutex o'), hf.mapped, (nomatch ·, ·), hf.reserved⟩
  | @putTid tid op out tids hpc htids =>
    have hctx : (s.pc t).HoldsCtx := by
      rw [hpc]
      trivial
    rw [hpc] at hf
    have huse : ∀ tid' o, s.maptMap tid' = some o → tid' ∈ tids := by
      intro tid' o hm
      have hin := h.map.inUse tid' o hm
      rcases htids with rfl | rfl
      · refine ⟨hin, ?_⟩
        rintro rfl
        rw [(hf.reserved tid' rfl).2] at hm
        cases hm
      · exact hin
    exact h.goto (h.frame hctx rfl rfl (fun _ _ _ => Iff.rfl) fun _ _ _ _ _ hm => hm)
      ⟨h.map.live, h.map.inj, huse, h.map.valid, h.map.fresh⟩
      ⟨hf.ctx, hf.mutex, hf.mapped, hf.owned, (nomatch ·, ·)⟩

theorem threadReach_inv {fd : Int} (h : ThreadReach fd s) : LockInv s := by
  refine h.invariant ?_ (fun s s' hinv hs => ?_)
  · rintro s ⟨_, hctx, hmap, hheap, hpc, _⟩
    refine ⟨⟨fun tid o hm => ?_, fun tid _ o hm => ?_, fun tid o hm => ?_, fun o c hc => ?_,
      0, fun o _ => hheap o⟩, fun t => ?_⟩
    · rw [hmap] at hm
      cases hm
    · rw [hmap] at hm
      cases hm
    · rw [hmap] at hm
      cases hm
    · rw [hheap] at hc
      cases hc
    · rw [hpc]
      refine ⟨iff_of_false (by rw [hctx]; exact (nomatch ·)) id, fun o => iff_of_false ?_ (nomatch ·),
        (nomatch ·, ·, ·), (nomatch ·, ·), (nomatch ·, ·)⟩
      rintro ⟨c, hc, _⟩
      rw [hheap] at hc
      cases hc
  · obtain ⟨t, ht⟩ := hs
    exact lockInv_step hinv ht

end Steps

/-! ### What the discipline gives -/

/-- The object that the next action of the thread reads or writes. -/
def State.accesses (s : State τ) (t : τ) : Option Nat :=
  match s.pc t with
  | .lookup tid _ => s.maptMap tid
  | .lockMapt _ _ o => some o
  | .inside _ _ _ (.unlockCtx _) => none
  | .inside _ _ o _ => some o
  | .freeLookup tid => s.maptMap tid
  | .freeLock _ o => some o
  | .freeUnlock _ o => some o
  | .destroy _ o _ _ => some o
  | _ => none

lemma LockInv.live_of_mapped (h : LockInv s) (hm : (s.pc t).mapped = some (tid, o)) :
    ∃ c, s.heap o = .live c := h.map.live tid o ((h.fits t).mapped tid o hm)

/-- An object is not used after it is released. -/
theorem LockInv.accesses_live (h : LockInv s) (ha : s.accesses t = some o) :
    ∃ c, s.heap o = .live c := by
  have hf := h.fits t
  unfold State.accesses at ha
  cases hpc : s.pc t with
  | lookup tid call =>
    rw [hpc] at ha
    exact h.map.live tid o ha
  | freeLookup tid =>
    rw [hpc] at ha
    exact h.map.live tid o ha
  | lockMapt tid call o' =>
    rw [hpc] at ha
    obtain rfl := Option.some.inj ha
    exact h.live_of_mapped (by rw [hpc]; rfl)
  | freeLock tid o' =>
    rw [hpc] at ha
    obtain rfl := Option.some.inj ha
    exact h.live_of_mapped (by rw [hpc]; rfl)
  | inside tid call o' p =>
    have ho : o' = o := by
      rw [hpc] at ha
      cases p with
      | unlockCtx k => cases ha
      | _ => exact Option.some.inj ha
    subst ho
    exact h.live_of_mapped (by rw [hpc]; rfl)
  | freeUnlock tid o' =>
    rw [hpc] at ha hf
    obtain rfl := Option.some.inj ha
    exact (hf.owned o' rfl).1
  | destroy tid o' op out =>
    rw [hpc] at ha hf
    obtain rfl := Option.some.inj ha
    exact (hf.owned o' rfl).1
  | _ =>
    rw [hpc] at ha
    cases ha

/-- A thread that works on a tid has it looked up and its mutex, or keeps it for itself. -/
lemma Pc.busy_cases (h : p.busy = some tid) :
    (∃ o, p.mapped = some (tid, o) ∧ p.mapt = some o) ∨ p.reserved = some tid := by
  cases p with
  | inside tid' call o p =>
    obtain rfl := Option.some.inj h
    exact Or.inl ⟨o, rfl, rfl⟩
  | mapDel tid' o =>
    obtain rfl := Option.some.inj h
    exact Or.inl ⟨o, rfl, rfl⟩
  | _ => exact Or.inr h

/-- At most one thread works on a tid. -/
theorem LockInv.busy_unique (h : LockInv s) (ht : (s.pc t).busy = some tid)
    (hu : (s.pc u).busy = some tid) : t = u := by
  have hclash : ∀ t u : τ, ∀ o, (s.pc t).mapped = some (tid, o) →
      (s.pc u).reserved ≠ some tid := by
    intro t u o hm hr
    have hnone := ((h.fits u).reserved tid hr).2
    rw [(h.fits t).mapped tid o hm] at hnone
    cases hnone
  rcases Pc.busy_cases ht with ⟨o, hm, hmutex⟩ | hr
  · rcases Pc.busy_cases hu with ⟨o', hm', hmutex'⟩ | hr'
    · have ho := ((h.fits t).mapped tid o hm).symm.trans ((h.fits u).mapped tid o' hm')
      obtain rfl := Option.some.inj ho
      exact h.mapt_unique hmutex hmutex'
    · exact (hclash t u o hm hr').elim
  · rcases Pc.busy_cases hu with ⟨o', hm', _⟩ | hr'
    · exact (hclash u t o' hm' hr).elim
    · exact h.ctx_unique (Pc.reserved_ctx hr) (Pc.reserved_ctx hr')

/-- `ummu_map_insert` never meets an existing key. -/
theorem LockInv.insert_new (h : LockInv s) {tidAttr out : Option (BitVec 32)} {env : AllocateEnv}
    (hpc : s.pc t = .insert tidAttr out env o) : s.maptMap env.info.tid = none := by
  have hf := h.fits t
  rw [hpc] at hf
  exact (hf.reserved _ rfl).2

end Locks

end Ummu
