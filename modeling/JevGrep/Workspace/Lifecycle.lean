/-
# `JevGrep.Workspace.Lifecycle` — capacity, publication and cleanup of registrations.

Every unfinished `register` call counts once, and with the published entries there are at most 32. A
call owns the lease it opened and the worker it created; its entry takes them over, or the call shuts
them. `Life` says this of one state, `Later` what two states of one run have in common. §1 owners; §2 what
a small step touches; §3 one call moves on; §4 entries leave; §5 the entries into the registry; §6 runs.
-/
import JevGrep.Lib.Sha256
import JevGrep.Workspace.RootAuthority

namespace JevGrep.Workspace

open JevGrep.Lib JevGrep.Lib.Schema JevGrep.Lib.Transition JevGrep.Lib.Utf16
open JevGrep.Contracts (JsString)
open JevGrep.Worker (Bytes)
open JevGrep.Client (Machine Promised SignalId Keeps objectOf)

/-! ## §1 — owners. -/

/-- Returned or thrown. -/
def Phase.isFinished : Phase → Bool
  | .published _ | .rejected _ => true
  | _ => false

/-- In the `catch` or thrown. -/
def Phase.isAbandoned : Phase → Bool
  | .failing .. | .rejected _ => true
  | _ => false

/-- The lease a call opened, until it has thrown. -/
def Phase.lease? : Phase → Option LeaseId
  | .observing _ l | .opening l _ _ | .validating l _ _ => some l
  | .failing l _ => l
  | .published e => some e.rootLease
  | .resolving | .leasing _ | .rejected _ => none

/-- The worker a call created, until it is in the `catch`. -/
def Phase.worker? : Phase → Option WorkerId
  | .opening _ w _ | .validating _ w _ => some w
  | .published e => some e.worker
  | _ => none

namespace Registry

/-- The `register` calls past the capacity check and not yet finished. -/
def inFlight (r : Registry) : Nat := r.tasks.countP fun task => !task.phase.isFinished

/-- A lease that exists, open or closed; and a worker likewise. -/
def LeaseIs (r : Registry) (l : LeaseId) (released : Bool) : Prop :=
  (r.leases[l]?).map (·.released) = some released

def WorkerIs (r : Registry) (w : WorkerId) (closed : Bool) : Prop :=
  (r.workers[w]?).map (·.machine.worker.disposed) = some closed

/-- What a call holds at the await it stands at. -/
def Held (r : Registry) : Phase → Prop
  | .observing _ l => r.LeaseIs l false
  | .opening l w _ | .validating l w _ => r.LeaseIs l false ∧ r.WorkerIs w false
  | .failing (some l) _ => r.LeaseIs l true
  | .published e => (∃ b, r.LeaseIs e.rootLease b) ∧ ∃ b, r.WorkerIs e.worker b
  | .failing none _ | .resolving | .leasing _ | .rejected _ => True

/-- What holds of every state of a run. -/
structure Life (host : Host) (r : Registry) : Prop where
  counted : r.registering = r.inFlight
  capacity : r.entries.length + r.registering ≤ 32
  emptied : r.closed = true → r.entries = []
  keys : (r.entries.map (·.1)).Nodup
  named : ∀ p ∈ r.entries, p.2.registration.workspaceId = p.1
  drawn : ∀ p ∈ r.entries, ∃ k < r.uuids, p.1 = host.uuid k
  registered : ∀ p ∈ r.entries, r.Registered p.2
  alive : ∀ p ∈ r.entries, r.LeaseIs p.2.rootLease false ∧ r.WorkerIs p.2.worker false
  held : ∀ (t : Nat) (task : Task), r.tasks[t]? = some task → r.Held task.phase
  leaseOnce : ∀ (t t' : Nat) (task task' : Task) (l : LeaseId), r.tasks[t]? = some task →
    r.tasks[t']? = some task' → task.phase.lease? = some l → task'.phase.lease? = some l → t = t'
  workerOnce : ∀ (t t' : Nat) (task task' : Task) (w : WorkerId), r.tasks[t]? = some task →
    r.tasks[t']? = some task' → task.phase.worker? = some w → task'.phase.worker? = some w → t = t'

/-- How a call goes on: it keeps its lease until it has thrown, with the lease released, and its worker
until it is in the `catch`, with the worker closed. -/
structure Goes (r' : Registry) (p p' : Phase) : Prop where
  lease : ∀ l, p.lease? = some l →
    p'.lease? = some l ∨ ((∃ code, p' = .rejected code) ∧ r'.LeaseIs l true)
  worker : ∀ w, p.worker? = some w →
    p'.worker? = some w ∨ (p'.isAbandoned = true ∧ r'.WorkerIs w true)
  abandoned : p.isAbandoned = true → p'.isAbandoned = true
  thrown : ∀ code, p = .rejected code → p' = .rejected code

/-- What two states of one run have in common. -/
structure Later (r r' : Registry) : Prop where
  tasks : ∀ (t : Nat) (task : Task), r.tasks[t]? = some task →
    ∃ task' : Task, r'.tasks[t]? = some task' ∧ r'.Goes task.phase task'.phase
  released : ∀ l, r.LeaseIs l true → r'.LeaseIs l true
  disposed : ∀ w, r.WorkerIs w true → r'.WorkerIs w true
  closed : r.closed = true → r'.closed = true ∧ ∀ e, r'.Registered e → r.Registered e

variable {host : Host} {r r' r'' : Registry}

theorem lt_of_leaseIs {l : LeaseId} {b : Bool} (h : r.LeaseIs l b) : l < r.leases.length := by
  obtain ⟨lease, hl, -⟩ := Option.map_eq_some_iff.mp h
  exact (List.getElem?_eq_some_iff.mp hl).1

theorem lt_of_workerIs {w : WorkerId} {b : Bool} (h : r.WorkerIs w b) : w < r.workers.length := by
  obtain ⟨slot, hw, -⟩ := Option.map_eq_some_iff.mp h
  exact (List.getElem?_eq_some_iff.mp hw).1

theorem Goes.refl (r' : Registry) (p : Phase) : r'.Goes p p where
  lease _ h := .inl h
  worker _ h := .inl h
  abandoned h := h
  thrown _ h := h

theorem Later.refl (r : Registry) : r.Later r where
  tasks _ task h := ⟨task, h, Goes.refl r task.phase⟩
  released _ h := h
  disposed _ h := h
  closed h := ⟨h, fun _ he => he⟩

theorem Later.trans (h : r.Later r') (h' : r'.Later r'') : r.Later r'' where
  tasks t task ht := by
    obtain ⟨task', ht', hgoes⟩ := h.tasks t task ht
    obtain ⟨task'', ht'', hgoes'⟩ := h'.tasks t task' ht'
    refine ⟨task'', ht'', ?_, ?_, fun hp => hgoes'.abandoned (hgoes.abandoned hp),
      fun code hp => hgoes'.thrown code (hgoes.thrown code hp)⟩
    · intro l hl
      rcases hgoes.lease l hl with hl' | ⟨⟨code, hcode⟩, hreleased⟩
      · exact hgoes'.lease l hl'
      · exact .inr ⟨⟨code, hgoes'.thrown code hcode⟩, h'.released l hreleased⟩
    · intro w hw
      rcases hgoes.worker w hw with hw' | ⟨habandoned, hclosed⟩
      · exact hgoes'.worker w hw'
      · exact .inr ⟨hgoes'.abandoned habandoned, h'.disposed w hclosed⟩
  released l hl := h'.released l (h.released l hl)
  disposed w hw := h'.disposed w (h.disposed w hw)
  closed hc := by
    obtain ⟨hc', hback⟩ := h.closed hc
    obtain ⟨hc'', hback'⟩ := h'.closed hc'
    exact ⟨hc'', fun e he => hback e (hback' e he)⟩

/-! ## §2 — what a small step touches. -/

/-- Leases outside `P` and workers outside `Q` stay as they are; nothing opens again or goes away. -/
structure Touches (P : LeaseId → Prop) (Q : WorkerId → Prop) (r r' : Registry) : Prop where
  lease : ∀ l b, r.LeaseIs l b → ¬ P l → r'.LeaseIs l b
  worker : ∀ w b, r.WorkerIs w b → ¬ Q w → r'.WorkerIs w b
  released : ∀ l, r.LeaseIs l true → r'.LeaseIs l true
  disposed : ∀ w, r.WorkerIs w true → r'.WorkerIs w true
  leases : r.leases.length ≤ r'.leases.length
  workers : r.workers.length ≤ r'.workers.length

variable {P P' : LeaseId → Prop} {Q Q' : WorkerId → Prop}

theorem leaseIs_of_lt {l : LeaseId} (h : l < r.leases.length) : ∃ b, r.LeaseIs l b :=
  ⟨r.leases[l].released, by rw [LeaseIs, List.getElem?_eq_getElem h, Option.map_some]⟩

theorem workerIs_of_lt {w : WorkerId} (h : w < r.workers.length) : ∃ b, r.WorkerIs w b :=
  ⟨r.workers[w].machine.worker.disposed, by
    rw [WorkerIs, List.getElem?_eq_getElem h, Option.map_some]⟩

/-- A step that leaves leases and workers alone. -/
theorem Touches.of_eq (hl : r'.leases = r.leases) (hw : r'.workers = r.workers) :
    Touches P Q r r' where
  lease l b h _ := by rwa [LeaseIs, hl]
  worker w b h _ := by rwa [WorkerIs, hw]
  released l h := by rwa [LeaseIs, hl]
  disposed w h := by rwa [WorkerIs, hw]
  leases := Nat.le_of_eq (by rw [hl])
  workers := Nat.le_of_eq (by rw [hw])

theorem Touches.trans (h : Touches P Q r r') (h' : Touches P Q r' r'') : Touches P Q r r'' where
  lease l b hl hp := h'.lease l b (h.lease l b hl hp) hp
  worker w b hw hq := h'.worker w b (h.worker w b hw hq) hq
  released l hl := h'.released l (h.released l hl)
  disposed w hw := h'.disposed w (h.disposed w hw)
  leases := h.leases.trans h'.leases
  workers := h.workers.trans h'.workers

theorem Touches.mono (h : Touches P Q r r') (hp : ∀ l, P l → P' l) (hq : ∀ w, Q w → Q' w) :
    Touches P' Q' r r' where
  lease l b hl hnot := h.lease l b hl fun hpl => hnot (hp l hpl)
  worker w b hw hnot := h.worker w b hw fun hqw => hnot (hq w hqw)
  released := h.released
  disposed := h.disposed
  leases := h.leases
  workers := h.workers

theorem workerIs_drive (w v : WorkerId) (e : Client.Event) :
    ((r.drive host w e).workers[v]?).map (·.machine.worker.disposed)
      = (r.workers[v]?).map fun slot =>
        if w = v then (slot.machine.step (host.runtime w) e).worker.disposed
        else slot.machine.worker.disposed := by
  rw [getElem?_drive, Option.map_map]
  refine congrArg (Option.map · r.workers[v]?) (funext fun slot => ?_)
  show (if w = v then { slot with machine := slot.machine.step (host.runtime w) e } else slot :
    RootWorker).machine.worker.disposed = _
  split <;> rfl

theorem length_drive (w : WorkerId) (e : Client.Event) :
    (r.drive host w e).workers.length = r.workers.length := List.length_modify _ _ _

/-- An entry into a worker other than `close` touches nothing. -/
theorem touches_drive (w : WorkerId) {e : Client.Event} (he : e ≠ .close) :
    Touches P Q r (r.drive host w e) := by
  have hkeep : ∀ v b, r.WorkerIs v b → (r.drive host w e).WorkerIs v b := by
    intro v b h
    obtain ⟨slot, hv, rfl⟩ := Option.map_eq_some_iff.mp h
    rw [WorkerIs, workerIs_drive, hv, Option.map_some]
    split
    · rw [(Keeps.step (host.runtime w) e slot.machine he).2]
    · rfl
  exact {
    lease := fun l b h _ => h
    worker := fun v b h _ => hkeep v b h
    released := fun l h => h
    disposed := fun v h => hkeep v true h
    leases := Nat.le_refl _
    workers := Nat.le_of_eq (length_drive w e).symm }

/-- `close` touches its worker. -/
theorem touches_close {w : WorkerId} (hq : Q w) : Touches P Q r (r.drive host w .close) where
  lease l b h _ := h
  worker v b h hv := by
    obtain ⟨slot, hslot, rfl⟩ := Option.map_eq_some_iff.mp h
    have hwv : w ≠ v := fun heq => hv (heq ▸ hq)
    rw [WorkerIs, workerIs_drive, hslot, Option.map_some, if_neg hwv]
  released l h := h
  disposed v h := by
    obtain ⟨slot, hslot, hd⟩ := Option.map_eq_some_iff.mp h
    rw [WorkerIs, workerIs_drive, hslot, Option.map_some]
    split
    · rw [Machine.step_disposed hd]
    · rw [hd]
  leases := Nat.le_refl _
  workers := Nat.le_of_eq (length_drive w .close).symm

theorem workerIs_close {w : WorkerId} {b : Bool} (h : r.WorkerIs w b) :
    (r.drive host w .close).WorkerIs w true := by
  obtain ⟨slot, hw, -⟩ := Option.map_eq_some_iff.mp h
  rw [WorkerIs, workerIs_drive, hw, Option.map_some, if_pos rfl]
  exact congrArg some (Machine.close_disposed slot.machine)

theorem leaseIs_release (l v : LeaseId) :
    ((r.release l).leases[v]?).map (·.released)
      = (r.leases[v]?).map fun lease => if l = v then true else lease.released := by
  rw [getElem?_release, Option.map_map]
  refine congrArg (Option.map · r.leases[v]?) (funext fun lease => ?_)
  show (if l = v then { lease with released := true } else lease : Lease).released = _
  split <;> rfl

/-- `release` touches its lease. -/
theorem touches_release {l : LeaseId} (hp : P l) : Touches P Q r (r.release l) where
  lease v b h hv := by
    obtain ⟨lease, hlease, rfl⟩ := Option.map_eq_some_iff.mp h
    have hlv : l ≠ v := fun heq => hv (heq ▸ hp)
    rw [LeaseIs, leaseIs_release, hlease, Option.map_some, if_neg hlv]
  worker w b h _ := h
  released v h := by
    obtain ⟨lease, hlease, hreleased⟩ := Option.map_eq_some_iff.mp h
    rw [LeaseIs, leaseIs_release, hlease, Option.map_some, hreleased, ite_self]
  disposed w h := h
  leases := Nat.le_of_eq (List.length_modify _ _ _).symm
  workers := Nat.le_refl _

theorem leaseIs_released {l : LeaseId} {b : Bool} (h : r.LeaseIs l b) :
    (r.release l).LeaseIs l true := by
  obtain ⟨lease, hl, -⟩ := Option.map_eq_some_iff.mp h
  rw [LeaseIs, leaseIs_release, hl, Option.map_some, if_pos rfl]

theorem touches_searchWorker (w : WorkerId) (input : List (List UInt16 × Json))
    (signal : Option SignalId) : Touches P Q r (r.searchWorker host w input signal).2 := by
  unfold Registry.searchWorker
  split
  · exact Touches.of_eq rfl rfl
  · exact touches_drive w (fun h => by cases h)

/-! ## §3 — one call moves on. -/

theorem countP_modify {α : Type} (p : α → Bool) (f : α → α) : ∀ (items : List α) (t : Nat) (a : α),
    items[t]? = some a →
      (items.modify t f).countP p + (if p a then 1 else 0) = items.countP p + (if p (f a) then 1 else 0)
  | a :: items, 0, b, h => by
      obtain rfl : a = b := Option.some.inj h
      rw [List.modify_zero_cons, List.countP_cons, List.countP_cons]
      omega
  | a :: items, t + 1, b, h => by
      have ih := countP_modify p f items t b h
      rw [List.modify_succ_cons, List.countP_cons, List.countP_cons]
      omega
  | [], t, a, h => by cases h

/-- What a phase asks for lasts where the step leaves its lease and its worker alone. -/
theorem Held.touched {phase : Phase} (h : r.Held phase) (ht : Touches P Q r r')
    (hlease : ∀ l, phase.lease? = some l → (∀ e, phase ≠ .published e) → ¬ P l)
    (hworker : ∀ w, phase.worker? = some w → (∀ e, phase ≠ .published e) → ¬ Q w) : r'.Held phase := by
  cases phase with
  | resolving => trivial
  | leasing canonical => trivial
  | observing canonical l => exact ht.lease l false h (hlease l rfl (fun e he => by cases he))
  | opening l w promise =>
      exact ⟨ht.lease l false h.1 (hlease l rfl (fun e he => by cases he)),
        ht.worker w false h.2 (hworker w rfl (fun e he => by cases he))⟩
  | validating l w promise =>
      exact ⟨ht.lease l false h.1 (hlease l rfl (fun e he => by cases he)),
        ht.worker w false h.2 (hworker w rfl (fun e he => by cases he))⟩
  | failing lease code =>
      cases lease with
      | none => trivial
      | some l => exact ht.released l h
  | published e =>
      obtain ⟨⟨b, hb⟩, c, hc⟩ := h
      exact ⟨leaseIs_of_lt (Nat.lt_of_lt_of_le (lt_of_leaseIs hb) ht.leases),
        workerIs_of_lt (Nat.lt_of_lt_of_le (lt_of_workerIs hc) ht.workers)⟩
  | rejected code => trivial

/-- What a phase holds exists. -/
theorem Held.lease_lt {phase : Phase} (h : r.Held phase) {l : LeaseId} (hl : phase.lease? = some l) :
    l < r.leases.length := by
  cases phase with
  | resolving => cases hl
  | leasing canonical => cases hl
  | observing canonical m => exact Option.some.inj hl ▸ lt_of_leaseIs h
  | opening m w promise => exact Option.some.inj hl ▸ lt_of_leaseIs h.1
  | validating m w promise => exact Option.some.inj hl ▸ lt_of_leaseIs h.1
  | failing lease code =>
      obtain rfl : lease = some l := hl
      exact lt_of_leaseIs h
  | published e =>
      obtain ⟨⟨b, hb⟩, -⟩ := h
      exact Option.some.inj hl ▸ lt_of_leaseIs hb
  | rejected code => cases hl

theorem Held.worker_lt {phase : Phase} (h : r.Held phase) {w : WorkerId}
    (hw : phase.worker? = some w) : w < r.workers.length := by
  cases phase with
  | opening l v promise => exact Option.some.inj hw ▸ lt_of_workerIs h.2
  | validating l v promise => exact Option.some.inj hw ▸ lt_of_workerIs h.2
  | published e =>
      obtain ⟨-, b, hb⟩ := h
      exact Option.some.inj hw ▸ lt_of_workerIs hb
  | resolving => cases hw
  | leasing canonical => cases hw
  | observing canonical l => cases hw
  | failing lease code => cases hw
  | rejected code => cases hw

/-- The step of one call `t` from `task.phase` to `phase`: it touches the lease and the worker of that
call at most, and takes over new ones at most. -/
structure Moves (t : Nat) (task : Task) (phase : Phase) (r r' : Registry) : Prop where
  found : r.tasks[t]? = some task
  running : task.phase.isFinished = false
  tasks : r'.tasks = r.tasks.modify t fun task => { task with phase := phase }
  count : r'.registering + 1 = r.registering + (if phase.isFinished then 0 else 1)
  closed : r'.closed = r.closed
  entries : r'.entries = r.entries
  uuids : r.uuids ≤ r'.uuids
  touches : Touches (fun l => task.phase.lease? = some l) (fun w => task.phase.worker? = some w) r r'
  held : r'.Held phase
  lease : ∀ l, phase.lease? = some l → task.phase.lease? = some l ∨ r.leases.length ≤ l
  worker : ∀ w, phase.worker? = some w → task.phase.worker? = some w ∨ r.workers.length ≤ w

theorem getElem?_modified {t v : Nat} {phase : Phase}
    (htasks : r'.tasks = r.tasks.modify t fun task => { task with phase := phase }) :
    r'.tasks[v]? = (r.tasks[v]?).map fun task =>
      if t = v then { task with phase := phase } else task := by
  rw [htasks]
  exact getElem?_setPhase t phase v

namespace Moves

variable {t : Nat} {task : Task} {phase : Phase}

/-- A call of the new state is the one that moved, or one of the old state. -/
theorem cases (hm : Moves t task phase r r') {v : Nat} {task' : Task} (hv : r'.tasks[v]? = some task') :
    (v = t ∧ task'.phase = phase) ∨ (v ≠ t ∧ r.tasks[v]? = some task') := by
  rw [getElem?_modified hm.tasks, Option.map_eq_some_iff] at hv
  obtain ⟨old, hold, rfl⟩ := hv
  by_cases htv : t = v
  · rw [if_pos htv]
    exact .inl ⟨htv.symm, rfl⟩
  · rw [if_neg htv]
    exact .inr ⟨fun heq => htv heq.symm, hold⟩

/-- A registration was published by another call. -/
theorem registered (hm : Moves t task phase r r') {e : Entry} (he : r.Registered e) :
    ∃ v task', v ≠ t ∧ r.tasks[v]? = some task' ∧ task'.phase = .published e := by
  obtain ⟨task', hmem, hphase⟩ := he
  obtain ⟨v, hv⟩ := List.getElem?_of_mem hmem
  refine ⟨v, task', ?_, hv, hphase⟩
  rintro rfl
  obtain rfl : task = task' := Option.some.inj (hm.found.symm.trans hv)
  have hrunning := hm.running
  rw [hphase] at hrunning
  cases hrunning

theorem stays_registered (hm : Moves t task phase r r') {e : Entry} (he : r.Registered e) :
    r'.Registered e := by
  obtain ⟨v, task', hv, hget, hphase⟩ := hm.registered he
  refine ⟨task', List.mem_of_getElem? (i := v) ?_, hphase⟩
  rw [getElem?_modified hm.tasks, hget, Option.map_some, if_neg fun heq => hv heq.symm]

theorem counted (hm : Moves t task phase r r') (h : r.registering = r.inFlight) :
    r'.registering = r'.inFlight := by
  have hmodify := countP_modify (fun task : Task => !task.phase.isFinished)
    (fun task => { task with phase := phase }) r.tasks t task hm.found
  have hmove := hm.count
  unfold inFlight at h ⊢
  rw [hm.running] at hmodify
  rw [hm.tasks]
  revert hmodify hmove
  cases phase.isFinished <;>
    simp only [Bool.not_true, Bool.not_false, if_true, if_false, Bool.false_eq_true] <;> omega

theorem capacity (hm : Moves t task phase r r') (h : r.entries.length + r.registering ≤ 32) :
    r'.entries.length + r'.registering ≤ 32 := by
  have hmove := hm.count
  rw [hm.entries]
  split at hmove <;> omega

/-- A handle that no two calls had is one that no two calls have: the moving call kept its own, or took
over one that is new. -/
theorem once (hm : Moves t task phase r r') {handle : Phase → Option Nat} {fresh : Nat}
    (hkept : ∀ n, handle phase = some n → handle task.phase = some n ∨ fresh ≤ n)
    (hlt : ∀ {v : Nat} {task' : Task} {n : Nat}, r.tasks[v]? = some task' → handle task'.phase = some n →
      n < fresh)
    (honce : ∀ (v v' : Nat) (task₁ task₂ : Task) (n : Nat), r.tasks[v]? = some task₁ →
      r.tasks[v']? = some task₂ → handle task₁.phase = some n → handle task₂.phase = some n → v = v')
    (v v' : Nat) (task₁ task₂ : Task) (n : Nat) (hv : r'.tasks[v]? = some task₁)
    (hv' : r'.tasks[v']? = some task₂) (hn : handle task₁.phase = some n)
    (hn' : handle task₂.phase = some n) : v = v' := by
  -- the call that moved has no handle of another one
  have hown : ∀ {v : Nat} {task' : Task}, v ≠ t → r.tasks[v]? = some task' →
      handle task'.phase = some n → handle phase ≠ some n := by
    intro v task' hne hget hother hmoved
    rcases hkept n hmoved with hold | hnew
    · exact hne (honce v t task' task n hget hm.found hother hold)
    · exact absurd (hlt hget hother) (Nat.not_lt.mpr hnew)
  rcases hm.cases hv with ⟨rfl, hphase⟩ | ⟨hne, hget⟩
  · rcases hm.cases hv' with ⟨rfl, -⟩ | ⟨hne', hget'⟩
    · rfl
    · exact absurd (hphase ▸ hn) (hown hne' hget' hn')
  · rcases hm.cases hv' with ⟨rfl, hphase⟩ | ⟨hne', hget'⟩
    · exact absurd (hphase ▸ hn') (hown hne hget hn)
    · exact honce v v' task₁ task₂ n hget hget' hn hn'

end Moves

theorem Life.lease_other (h : Life host r) {t v : Nat} {task task' : Task} (ht : r.tasks[t]? = some task)
    (hne : v ≠ t) (hv : r.tasks[v]? = some task') {l : LeaseId} (hl : task'.phase.lease? = some l) :
    task.phase.lease? ≠ some l := fun hl' => hne (h.leaseOnce v t task' task l hv ht hl hl')

theorem Life.worker_other (h : Life host r) {t v : Nat} {task task' : Task} (ht : r.tasks[t]? = some task)
    (hne : v ≠ t) (hv : r.tasks[v]? = some task') {w : WorkerId} (hw : task'.phase.worker? = some w) :
    task.phase.worker? ≠ some w := fun hw' => hne (h.workerOnce v t task' task w hv ht hw hw')

/-- The entries of the map keep their leases and workers. -/
theorem Life.alive_moved (h : Life host r) {t : Nat} {task : Task} {phase : Phase}
    (hm : Moves t task phase r r') : ∀ p ∈ r.entries,
    r'.LeaseIs p.2.rootLease false ∧ r'.WorkerIs p.2.worker false := by
  intro p hp
  obtain ⟨v, task', hv, hget, hphase⟩ := hm.registered (h.registered p hp)
  have hlease : task'.phase.lease? = some p.2.rootLease := by rw [hphase]; rfl
  have hworker : task'.phase.worker? = some p.2.worker := by rw [hphase]; rfl
  obtain ⟨hopen, hopen'⟩ := h.alive p hp
  exact ⟨hm.touches.lease _ _ hopen (h.lease_other hm.found hv hget hlease),
    hm.touches.worker _ _ hopen' (h.worker_other hm.found hv hget hworker)⟩

theorem Life.moves (h : Life host r) {t : Nat} {task : Task} {phase : Phase}
    (hm : Moves t task phase r r') : Life host r' where
  counted := hm.counted h.counted
  capacity := hm.capacity h.capacity
  emptied := by
    rw [hm.closed, hm.entries]
    exact h.emptied
  keys := by
    rw [hm.entries]
    exact h.keys
  named := by
    rw [hm.entries]
    exact h.named
  drawn := by
    rw [hm.entries]
    intro p hp
    obtain ⟨k, hk, heq⟩ := h.drawn p hp
    exact ⟨k, Nat.lt_of_lt_of_le hk hm.uuids, heq⟩
  registered := by
    rw [hm.entries]
    exact fun p hp => hm.stays_registered (h.registered p hp)
  alive := by
    rw [hm.entries]
    exact h.alive_moved hm
  held := by
    intro v task' hv
    rcases hm.cases hv with ⟨-, hphase⟩ | ⟨hne, hget⟩
    · rw [hphase]
      exact hm.held
    · exact (h.held v task' hget).touched hm.touches (fun l hl _ => h.lease_other hm.found hne hget hl)
        fun w hw _ => h.worker_other hm.found hne hget hw
  leaseOnce := hm.once hm.lease (fun hget hl => (h.held _ _ hget).lease_lt hl) h.leaseOnce
  workerOnce := hm.once hm.worker (fun hget hw => (h.held _ _ hget).worker_lt hw) h.workerOnce

/-- A later state in which everything still holds. -/
def Lives (host : Host) (r r' : Registry) : Prop := Life host r' ∧ r.Later r'

theorem Lives.trans (h : Lives host r r') (h' : Life host r' → Lives host r' r'') : Lives host r r'' :=
  ⟨(h' h.1).1, h.2.trans (h' h.1).2⟩

theorem Life.stay (h : Life host r) : Lives host r r := ⟨h, Later.refl r⟩

/-- **One call moves on.** -/
theorem Life.moved (h : Life host r) {t : Nat} {task : Task} {phase : Phase}
    (hm : Moves t task phase r r') (hgoes : r'.Goes task.phase phase)
    (hopen : r.closed = true → ∀ e, phase ≠ .published e) : Lives host r r' := by
  refine ⟨h.moves hm, ?_, hm.touches.released, hm.touches.disposed, fun hc => ?_⟩
  · intro v old hv
    by_cases htv : t = v
    · subst htv
      obtain rfl : task = old := Option.some.inj (hm.found.symm.trans hv)
      refine ⟨{ task with phase := phase }, ?_, hgoes⟩
      rw [getElem?_modified hm.tasks, hv, Option.map_some, if_pos rfl]
    · refine ⟨old, ?_, Goes.refl r' old.phase⟩
      rw [getElem?_modified hm.tasks, hv, Option.map_some, if_neg htv]
  · refine ⟨hm.closed.trans hc, ?_⟩
    rintro e ⟨task', hmem, hphase⟩
    obtain ⟨v, hv⟩ := List.getElem?_of_mem hmem
    rw [getElem?_modified hm.tasks, Option.map_eq_some_iff] at hv
    obtain ⟨old, hold, rfl⟩ := hv
    by_cases htv : t = v
    · rw [if_pos htv] at hphase
      exact absurd hphase (hopen hc e)
    · rw [if_neg htv] at hphase
      exact ⟨old, List.mem_of_getElem? hold, hphase⟩

/-- A move that ends with the phase: `q` is the state behind what it does to leases and workers. -/
theorem Moves.of_setPhase {q : Registry} {t : Nat} {task : Task} {phase : Phase}
    (hfound : r.tasks[t]? = some task) (hrunning : task.phase.isFinished = false)
    (htasks : q.tasks = r.tasks)
    (hcount : q.registering + 1 = r.registering + (if phase.isFinished then 0 else 1))
    (hclosed : q.closed = r.closed) (hentries : q.entries = r.entries) (huuids : r.uuids ≤ q.uuids)
    (htouches : Touches (fun l => task.phase.lease? = some l) (fun w => task.phase.worker? = some w) r q)
    (hheld : q.Held phase)
    (hlease : ∀ l, phase.lease? = some l → task.phase.lease? = some l ∨ r.leases.length ≤ l)
    (hworker : ∀ w, phase.worker? = some w → task.phase.worker? = some w ∨ r.workers.length ≤ w) :
    Moves t task phase r (q.setPhase t phase) where
  found := hfound
  running := hrunning
  tasks := by
    rw [← htasks]
    rfl
  count := hcount
  closed := hclosed
  entries := hentries
  uuids := huuids
  touches := htouches.trans (Touches.of_eq rfl rfl)
  held := hheld.touched (P := fun _ => False) (Q := fun _ => False) (Touches.of_eq rfl rfl)
    (fun _ _ _ h => h) fun _ _ _ h => h
  lease := hlease
  worker := hworker

theorem exists_task {t : Nat} {phase : Phase} (h : (r.tasks[t]?).map Task.phase = some phase) :
    ∃ task, r.tasks[t]? = some task ∧ task.phase = phase :=
  Option.map_eq_some_iff.mp h

/-- The `catch` closes what the call holds. -/
theorem Life.abandon (h : Life host r) {t : Nat} {task : Task} (ht : r.tasks[t]? = some task)
    (hrunning : task.phase.isFinished = false) {lease : Option LeaseId} {worker : Option WorkerId}
    (hl : task.phase.lease? = lease) (hw : task.phase.worker? = worker) (code : WorkspaceErrorCode) :
    Lives host r (r.abandon host t lease worker code) := by
  have hheld := h.held t task ht
  set closed := r.closeWorker host worker with hclosed
  have hfirst : Touches (fun l => task.phase.lease? = some l) (fun w => task.phase.worker? = some w)
      r closed := by
    cases worker with
    | none => exact Touches.of_eq rfl rfl
    | some w => exact touches_close hw
  have hsecond : Touches (fun l => task.phase.lease? = some l) (fun w => task.phase.worker? = some w)
      closed (closed.closeLease lease) := by
    cases lease with
    | none => exact Touches.of_eq rfl rfl
    | some l => exact touches_release hl
  have hreleased : (closed.closeLease lease).Held (.failing lease code) := by
    cases lease with
    | none => trivial
    | some l =>
        have hlt : l < closed.leases.length := Nat.lt_of_lt_of_le (hheld.lease_lt hl) hfirst.leases
        obtain ⟨b, hb⟩ := leaseIs_of_lt hlt
        exact leaseIs_released hb
  have hdisposed : ∀ w, task.phase.worker? = some w → (closed.closeLease lease).WorkerIs w true := by
    intro w hsome
    obtain rfl : worker = some w := hw.symm.trans hsome
    obtain ⟨b, hb⟩ := workerIs_of_lt (hheld.worker_lt hsome)
    exact hsecond.disposed w (workerIs_close hb)
  have hmoves : Moves t task (.failing lease code) r (r.abandon host t lease worker code) := by
    refine Moves.of_setPhase ht hrunning ?_ ?_ ?_ ?_ ?_ (hfirst.trans hsecond) hreleased ?_ ?_
    · cases worker <;> cases lease <;> rfl
    · cases worker <;> cases lease <;> rfl
    · cases worker <;> cases lease <;> rfl
    · cases worker <;> cases lease <;> rfl
    · cases worker <;> cases lease <;> exact Nat.le_refl _
    · intro l hlease
      exact .inl (hl.trans hlease)
    · intro w hworker
      cases hworker
  refine h.moved hmoves ⟨?_, ?_, fun _ => rfl, ?_⟩ fun _ e he => by cases he
  · intro l hsome
    exact .inl (hl.symm.trans hsome)
  · intro w hsome
    exact .inr ⟨rfl, hdisposed w hsome⟩
  · intro thrown hphase
    rw [hphase] at hrunning
    cases hrunning

/-- A call goes on without giving anything up. -/
theorem Life.advance (h : Life host r) {q : Registry} {t : Nat} {task : Task} {phase : Phase}
    (hfound : r.tasks[t]? = some task) (hrunning : task.phase.isFinished = false)
    (hcatch : task.phase.isAbandoned = false) (hgoing : phase.isFinished = false)
    (htasks : q.tasks = r.tasks) (hcount : q.registering = r.registering)
    (hclosed : q.closed = r.closed) (hentries : q.entries = r.entries) (huuids : r.uuids ≤ q.uuids)
    (htouches : Touches (fun l => task.phase.lease? = some l) (fun w => task.phase.worker? = some w) r q)
    (hheld : q.Held phase)
    (hlease : ∀ l, phase.lease? = some l → task.phase.lease? = some l ∨ r.leases.length ≤ l)
    (hworker : ∀ w, phase.worker? = some w → task.phase.worker? = some w ∨ r.workers.length ≤ w)
    (hkeepsLease : ∀ l, task.phase.lease? = some l → phase.lease? = some l)
    (hkeepsWorker : ∀ w, task.phase.worker? = some w → phase.worker? = some w) :
    Lives host r (q.setPhase t phase) := by
  have hmoves := Moves.of_setPhase hfound hrunning htasks (by rw [hgoing, hcount]; rfl) hclosed hentries
    huuids htouches hheld hlease hworker
  refine h.moved hmoves ⟨fun l hl => .inl (hkeepsLease l hl), fun w hw => .inl (hkeepsWorker w hw), ?_, ?_⟩ ?_
  · intro habandoned
    rw [hcatch] at habandoned
    cases habandoned
  · intro code hphase
    rw [hphase] at hrunning
    cases hrunning
  · rintro - e rfl
    cases hgoing

theorem Life.onRealpath (h : Life host r) (t : Nat) (canonical : Option JsString) :
    Lives host r (r.onRealpath host t canonical) := by
  unfold Registry.onRealpath
  split
  · rename_i canonical hp
    obtain ⟨task, ht, hphase⟩ := exists_task hp
    refine h.advance ht (by rw [hphase]; rfl) (by rw [hphase]; rfl) rfl rfl rfl rfl rfl (Nat.le_refl _)
      (Touches.of_eq rfl rfl) trivial ?_ ?_ ?_ ?_ <;> rw [hphase] <;> exact fun _ he => by cases he
  · rename_i hp
    obtain ⟨task, ht, hphase⟩ := exists_task hp
    exact h.abandon ht (by rw [hphase]; rfl) (by rw [hphase]; rfl) (by rw [hphase]; rfl) _
  · exact h.stay

theorem touches_openLease (lease : Lease) :
    Touches P Q r { r with leases := r.leases ++ [lease] } := by
  have hkeep : ∀ l b, r.LeaseIs l b → Registry.LeaseIs { r with leases := r.leases ++ [lease] } l b := by
    intro l b hl
    rw [LeaseIs, List.getElem?_append_left (lt_of_leaseIs hl)]
    exact hl
  exact {
    lease := fun l b hl _ => hkeep l b hl
    worker := fun w b hw _ => hw
    released := fun l hl => hkeep l true hl
    disposed := fun w hw => hw
    leases := by
      rw [List.length_append]
      exact Nat.le_add_right _ _
    workers := Nat.le_refl _ }

theorem touches_createWorker (slot : RootWorker) :
    Touches P Q r { r with workers := r.workers ++ [slot] } := by
  have hkeep : ∀ w b, r.WorkerIs w b → Registry.WorkerIs { r with workers := r.workers ++ [slot] } w b := by
    intro w b hw
    rw [WorkerIs, List.getElem?_append_left (lt_of_workerIs hw)]
    exact hw
  exact {
    lease := fun l b hl _ => hl
    worker := fun w b hw _ => hkeep w b hw
    released := fun l hl => hl
    disposed := fun w hw => hkeep w true hw
    leases := Nat.le_refl _
    workers := by
      rw [List.length_append]
      exact Nat.le_add_right _ _ }

theorem Life.onOpen (h : Life host r) (t : Nat) (lease : Option Lease) :
    Lives host r (r.onOpen host t lease) := by
  unfold Registry.onOpen
  split
  · rename_i canonical lease hp
    obtain ⟨task, ht, hphase⟩ := exists_task hp
    dsimp only
    refine h.advance ht (by rw [hphase]; rfl) (by rw [hphase]; rfl) rfl rfl rfl rfl rfl (Nat.le_refl _)
      (touches_openLease _) ?_ ?_ ?_ ?_ ?_
    · show Registry.LeaseIs _ r.leases.length false
      rw [LeaseIs, List.getElem?_append_right (Nat.le_refl _), Nat.sub_self]
      rfl
    · intro l hl
      exact .inr (Nat.le_of_eq (Option.some.inj hl))
    · exact fun _ hw => by cases hw
    · rw [hphase]
      exact fun _ hl => by cases hl
    · rw [hphase]
      exact fun _ hw => by cases hw
  · rename_i hp
    obtain ⟨task, ht, hphase⟩ := exists_task hp
    exact h.abandon ht (by rw [hphase]; rfl) (by rw [hphase]; rfl) (by rw [hphase]; rfl) _
  · exact h.stay

theorem Life.onStat (h : Life host r) (t : Nat) (ok : Bool) : Lives host r (r.onStat host t ok) := by
  unfold Registry.onStat
  split
  · rename_i canonical l hp
    obtain ⟨task, ht, hphase⟩ := exists_task hp
    have hrunning : task.phase.isFinished = false := by rw [hphase]; rfl
    have hlease : task.phase.lease? = some l := by rw [hphase]; rfl
    have hworker : task.phase.worker? = none := by rw [hphase]; rfl
    split
    · exact h.stay
    · rename_i lease hl
      split
      · exact h.abandon ht hrunning hlease hworker _
      · split
        · exact h.abandon ht hrunning hlease hworker _
        · split
          · exact h.abandon ht hrunning hlease hworker _
          · dsimp only
            set slot : RootWorker :=
              { root := canonical, lease := l, machine := Machine.create (some lease.identity) }
            set created : Registry := { r with workers := r.workers ++ [slot] }
            have hopen : r.LeaseIs l false := by
              have hheld := h.held t task ht
              rw [hphase] at hheld
              exact hheld
            have hnew : created.WorkerIs r.workers.length false := by
              rw [WorkerIs, List.getElem?_append_right (Nat.le_refl _), Nat.sub_self]
              rfl
            have hcreated : Touches (fun l => task.phase.lease? = some l)
                (fun w => task.phase.worker? = some w) r created := touches_createWorker slot
            have hdriven : Touches (fun l => task.phase.lease? = some l)
                (fun w => task.phase.worker? = some w) created
                (created.drive host r.workers.length .openRoot) := touches_drive _ fun he => by cases he
            refine h.advance ht hrunning (by rw [hphase]; rfl) rfl rfl rfl rfl rfl (Nat.le_refl _)
              (hcreated.trans hdriven) ⟨hopen, ?_⟩ ?_ ?_ ?_ ?_
            · apply hdriven.worker _ _ hnew
              rw [hworker]
              exact fun he => by cases he
            · intro m hm
              rw [hlease]
              exact .inl hm
            · intro w hw
              exact .inr (Nat.le_of_eq (Option.some.inj hw))
            · intro m hm
              rw [hlease] at hm
              exact hm
            · intro w hw
              rw [hworker] at hw
              cases hw
  · exact h.stay

/-- A call that is not finished is counted. -/
theorem Life.registering_pos (h : Life host r) {t : Nat} {task : Task} (ht : r.tasks[t]? = some task)
    (hrunning : task.phase.isFinished = false) : 0 < r.registering := by
  rw [h.counted, inFlight, List.countP_pos_iff]
  exact ⟨task, List.mem_of_getElem? ht, by rw [hrunning]; rfl⟩

theorem Life.onLeaseClosed (h : Life host r) (t : Nat) (ok : Bool) :
    Lives host r (r.onLeaseClosed t ok) := by
  unfold Registry.onLeaseClosed
  split
  · rename_i lease code hp
    obtain ⟨task, ht, hphase⟩ := exists_task hp
    have hrunning : task.phase.isFinished = false := by rw [hphase]; rfl
    have hpos := h.registering_pos ht hrunning
    have hheld := h.held t task ht
    set phase := Phase.rejected (if ok || lease.isNone then some code else none) with hrejected
    set counted : Registry := { r with registering := r.registering - 1 }
    have hmoves : Moves t task phase r (counted.setPhase t phase) := by
      refine Moves.of_setPhase ht hrunning rfl ?_ rfl rfl (Nat.le_refl _) (Touches.of_eq rfl rfl) trivial
        (fun _ hl => by cases hl) fun _ hw => by cases hw
      show r.registering - 1 + 1 = r.registering + 0
      omega
    have hthrown : ∀ e, phase ≠ .published e := fun e he => by
      rw [hrejected] at he
      cases he
    refine h.moved hmoves ⟨?_, ?_, fun _ => rfl, ?_⟩ fun _ => hthrown
    · intro l hl
      rw [hphase] at hl hheld
      obtain rfl : lease = some l := hl
      exact .inr ⟨⟨_, rfl⟩, hheld⟩
    · intro w hw
      rw [hphase] at hw
      cases hw
    · intro thrown he
      rw [hphase] at he
      cases he
  · exact h.stay

/-! ## §4 — entries come and go. -/

theorem mem_set {id : JsString} {e : Entry} {p : JsString × Entry} (hp : p ∈ (r.set id e).entries) :
    p ∈ r.entries ∨ p = (id, e) := by
  rw [Registry.set] at hp
  dsimp only at hp
  split at hp
  · obtain ⟨q, hq, rfl⟩ := List.mem_map.mp hp
    split
    · rename_i hid
      exact .inr (by rw [beq_iff_eq.mp hid])
    · exact .inl hq
  · rcases List.mem_append.mp hp with hq | hq
    · exact .inl hq
    · exact .inr (List.mem_singleton.mp hq)

theorem length_set_le (id : JsString) (e : Entry) :
    (r.set id e).entries.length ≤ r.entries.length + 1 := by
  rw [Registry.set]
  dsimp only
  split
  · rw [List.length_map]
    exact Nat.le_succ _
  · rw [List.length_append]
    exact Nat.le_refl _

theorem keys_set (id : JsString) (e : Entry) (h : (r.entries.map (·.1)).Nodup) :
    ((r.set id e).entries.map (·.1)).Nodup := by
  rw [Registry.set]
  dsimp only
  split
  · have hkeys : (r.entries.map fun p => if p.1 == id then (p.1, e) else p).map (·.1)
        = r.entries.map (·.1) := by
      rw [List.map_map]
      apply List.map_congr_left
      intro p _
      show (if p.1 == id then (p.1, e) else p).1 = p.1
      split <;> rfl
    rw [hkeys]
    exact h
  · rename_i hnew
    rw [List.map_append, List.nodup_append]
    refine ⟨h, List.nodup_singleton _, ?_⟩
    intro a ha b hb hab
    obtain ⟨p, hp, rfl⟩ := List.mem_map.mp ha
    obtain rfl : b = id := List.mem_singleton.mp hb
    refine hnew (List.any_eq_true.mpr ⟨p, hp, ?_⟩)
    exact beq_iff_eq.mpr hab

/-- A published entry enters the map. -/
theorem Life.enter (h : Life host r) {id : JsString} {e : Entry}
    (hroom : r.entries.length + 1 + r.registering ≤ 32)
    (hclosed : r.closed = false) (hnamed : e.registration.workspaceId = id)
    (hdrawn : ∃ k < r.uuids, id = host.uuid k) (hreg : r.Registered e)
    (halive : r.LeaseIs e.rootLease false ∧ r.WorkerIs e.worker false) : Lives host r (r.set id e) := by
  refine ⟨{
    counted := h.counted
    capacity := ?_
    emptied := fun hc => absurd hc (by rw [show (r.set id e).closed = r.closed from rfl, hclosed]; decide)
    keys := keys_set id e h.keys
    named := fun p hp => ?_
    drawn := fun p hp => ?_
    registered := fun p hp => ?_
    alive := fun p hp => ?_
    held := fun t task ht => ?_
    leaseOnce := h.leaseOnce
    workerOnce := h.workerOnce }, ?_⟩
  · have hlength := @length_set_le r id e
    show (r.set id e).entries.length + r.registering ≤ 32
    omega
  · rcases mem_set hp with hp | rfl
    · exact h.named p hp
    · exact hnamed
  · rcases mem_set hp with hp | rfl
    · exact h.drawn p hp
    · exact hdrawn
  · rcases mem_set hp with hp | rfl
    · exact h.registered p hp
    · exact hreg
  · rcases mem_set hp with hp | rfl
    · exact h.alive p hp
    · exact halive
  · exact (h.held t task ht).touched (P := fun _ => False) (Q := fun _ => False) (Touches.of_eq rfl rfl)
      (fun _ _ _ hl => hl) fun _ _ _ hw => hw
  · exact {
      tasks := fun t task ht => ⟨task, ht, Goes.refl _ task.phase⟩
      released := fun l hl => hl
      disposed := fun w hw => hw
      closed := fun hc => ⟨hc, fun _ he => he⟩ }

/-- Entries leave the map with what they hold, or nothing but leases and workers of theirs is touched. -/
theorem Life.drop (h : Life host r) {q : Registry} (htasks : q.tasks = r.tasks)
    (hcount : q.registering = r.registering) (huuids : q.uuids = r.uuids)
    (hclosed : r.closed = true → q.closed = true) (hentries : q.entries.Sublist r.entries)
    (hemptied : q.closed = true → q.entries = []) (htouches : Touches P Q r q)
    (hlease : ∀ l, P l → ∃ p ∈ r.entries, p ∉ q.entries ∧ p.2.rootLease = l)
    (hworker : ∀ w, Q w → ∃ p ∈ r.entries, p ∉ q.entries ∧ p.2.worker = w) : Lives host r q := by
  have hregistered : ∀ e, q.Registered e ↔ r.Registered e := by
    intro e
    rw [Registered, Registered, htasks]
  -- an entry is known by the call that holds its lease, and that call by its lease
  have hholder : ∀ p ∈ r.entries, ∃ (t : Nat) (task : Task), r.tasks[t]? = some task ∧
      task.phase = .published p.2 := by
    intro p hp
    obtain ⟨task, hmem, hphase⟩ := h.registered p hp
    obtain ⟨t, ht⟩ := List.getElem?_of_mem hmem
    exact ⟨t, task, ht, hphase⟩
  have hsame : ∀ p ∈ r.entries, ∀ p' ∈ r.entries, p.2 = p'.2 → p = p' := by
    intro p hp p' hp' heq
    refine Prod.ext ?_ heq
    rw [← h.named p hp, ← h.named p' hp', heq]
  have hleaseOf : ∀ p ∈ r.entries, ∀ (t : Nat) (task : Task), r.tasks[t]? = some task →
      task.phase.lease? = some p.2.rootLease → task.phase = .published p.2 := by
    intro p hp t task ht hl
    obtain ⟨t', task', ht', hphase⟩ := hholder p hp
    have hl' : task'.phase.lease? = some p.2.rootLease := by rw [hphase]; rfl
    obtain rfl := h.leaseOnce t t' task task' _ ht ht' hl hl'
    obtain rfl : task = task' := Option.some.inj (ht.symm.trans ht')
    exact hphase
  have hworkerOf : ∀ p ∈ r.entries, ∀ (t : Nat) (task : Task), r.tasks[t]? = some task →
      task.phase.worker? = some p.2.worker → task.phase = .published p.2 := by
    intro p hp t task ht hw
    obtain ⟨t', task', ht', hphase⟩ := hholder p hp
    have hw' : task'.phase.worker? = some p.2.worker := by rw [hphase]; rfl
    obtain rfl := h.workerOnce t t' task task' _ ht ht' hw hw'
    obtain rfl : task = task' := Option.some.inj (ht.symm.trans ht')
    exact hphase
  have hkept : ∀ p ∈ q.entries, ¬ P p.2.rootLease ∧ ¬ Q p.2.worker := by
    intro p hp
    have hpr := hentries.subset hp
    obtain ⟨t, task, ht, hphase⟩ := hholder p hpr
    constructor
    · intro hP
      obtain ⟨p', hp', hout, heq⟩ := hlease _ hP
      have hphase' := hleaseOf p' hp' t task ht (by rw [hphase, heq]; rfl)
      rw [hphase] at hphase'
      obtain rfl := hsame p hpr p' hp' (Phase.published.inj hphase')
      exact hout hp
    · intro hQ
      obtain ⟨p', hp', hout, heq⟩ := hworker _ hQ
      have hphase' := hworkerOf p' hp' t task ht (by rw [hphase, heq]; rfl)
      rw [hphase] at hphase'
      obtain rfl := hsame p hpr p' hp' (Phase.published.inj hphase')
      exact hout hp
  refine ⟨{
    counted := by rw [hcount, h.counted, inFlight, inFlight, htasks]
    capacity := by
      have hcapacity := h.capacity
      have hlength := hentries.length_le
      omega
    emptied := hemptied
    keys := h.keys.sublist (hentries.map _)
    named := fun p hp => h.named p (hentries.subset hp)
    drawn := fun p hp => by
      rw [huuids]
      exact h.drawn p (hentries.subset hp)
    registered := fun p hp => (hregistered _).mpr (h.registered p (hentries.subset hp))
    alive := fun p hp => by
      obtain ⟨hopen, hopen'⟩ := h.alive p (hentries.subset hp)
      exact ⟨htouches.lease _ _ hopen (hkept p hp).1, htouches.worker _ _ hopen' (hkept p hp).2⟩
    held := fun t task ht => by
      rw [htasks] at ht
      refine (h.held t task ht).touched htouches (fun l hl hnot hP => ?_) fun w hw hnot hQ => ?_
      · obtain ⟨p, hp, -, rfl⟩ := hlease l hP
        exact hnot _ (hleaseOf p hp t task ht hl)
      · obtain ⟨p, hp, -, rfl⟩ := hworker w hQ
        exact hnot _ (hworkerOf p hp t task ht hw)
    leaseOnce := by
      rw [htasks]
      exact h.leaseOnce
    workerOnce := by
      rw [htasks]
      exact h.workerOnce }, ?_⟩
  exact {
    tasks := fun t task ht => ⟨task, htasks ▸ ht, Goes.refl _ task.phase⟩
    released := htouches.released
    disposed := htouches.disposed
    closed := fun hc => ⟨hclosed hc, fun e he => (hregistered e).mp he⟩ }

/-- A step that touches nothing. -/
theorem Life.still (h : Life host r) {q : Registry} (htasks : q.tasks = r.tasks)
    (hcount : q.registering = r.registering) (huuids : q.uuids = r.uuids)
    (hclosed : q.closed = r.closed) (hentries : q.entries = r.entries)
    (htouches : Touches (fun _ => False) (fun _ => False) r q) : Lives host r q := by
  refine h.drop htasks hcount huuids (fun hc => hclosed.trans hc) (hentries ▸ List.Sublist.refl _) ?_
    htouches (fun _ hl => hl.elim) fun _ hw => hw.elim
  intro hc
  rw [hentries]
  exact h.emptied (hclosed.symm.trans hc)

/-- The state of a call that is done, before its entry is in the map. -/
theorem Life.publish (h : Life host r) {t : Nat} {task : Task} {l : LeaseId} {w : WorkerId}
    {promise : Promised} (ht : r.tasks[t]? = some task) (hphase : task.phase = .validating l w promise)
    (hclosed : r.closed = false) : Lives host r (r.publish host t task.policy l w) := by
  have hrunning : task.phase.isFinished = false := by rw [hphase]; rfl
  have hpos := h.registering_pos ht hrunning
  have hheld := h.held t task ht
  rw [hphase] at hheld
  unfold Registry.publish
  dsimp only
  set entry : Entry := {
    registration := {
      workspaceId := host.uuid r.uuids, scopePolicyId := host.uuid (r.uuids + 1)
      policyHash := policyHash host.sha256 task.policy, policy := task.policy }
    worker := w, rootLease := l }
  set counted : Registry := { r with uuids := r.uuids + 2, registering := r.registering - 1 }
  have hmoves : Moves t task (.published entry) r (counted.setPhase t (.published entry)) := by
    refine Moves.of_setPhase ht hrunning rfl ?_ rfl rfl (Nat.le_add_right _ _) (Touches.of_eq rfl rfl)
      ⟨⟨false, hheld.1⟩, false, hheld.2⟩ ?_ ?_
    · show r.registering - 1 + 1 = r.registering + 0
      omega
    · intro m hm
      rw [hphase]
      exact .inl hm
    · intro v hv
      rw [hphase]
      exact .inl hv
  have hdone : Lives host r (counted.setPhase t (.published entry)) := by
    refine h.moved hmoves ⟨?_, ?_, ?_, ?_⟩ fun hc => absurd hc (by rw [hclosed]; decide)
    · intro m hm
      rw [hphase] at hm
      exact .inl hm
    · intro v hv
      rw [hphase] at hv
      exact .inl hv
    · intro habandoned
      rw [hphase] at habandoned
      cases habandoned
    · intro code he
      rw [hphase] at he
      cases he
  refine hdone.trans fun h' => ?_
  -- the entry takes the lease and the worker over
  refine h'.enter ?_ hclosed rfl ⟨r.uuids, Nat.lt_add_of_pos_right (by decide), rfl⟩ ?_ hheld
  · have hcapacity := h.capacity
    show r.entries.length + 1 + (r.registering - 1) ≤ 32
    omega
  · refine ⟨{ task with phase := .published entry }, List.mem_of_getElem? (i := t) ?_, rfl⟩
    rw [getElem?_modified hmoves.tasks, ht, Option.map_some, if_pos rfl]

theorem searchWorker_frame (w : WorkerId) (input : List (List UInt16 × Json)) (signal : Option SignalId) :
    (r.searchWorker host w input signal).2.tasks = r.tasks ∧
      (r.searchWorker host w input signal).2.registering = r.registering ∧
      (r.searchWorker host w input signal).2.uuids = r.uuids ∧
      (r.searchWorker host w input signal).2.closed = r.closed ∧
      (r.searchWorker host w input signal).2.entries = r.entries := by
  unfold Registry.searchWorker
  split <;> exact ⟨rfl, rfl, rfl, rfl, rfl⟩

theorem searchWorker_searches (w : WorkerId) (input : List (List UInt16 × Json))
    (signal : Option SignalId) : (r.searchWorker host w input signal).2.searches = r.searches := by
  unfold Registry.searchWorker
  split <;> rfl

theorem Life.resume (h : Life host r) (t : Nat) : Lives host r (r.resume host t) := by
  unfold Registry.resume
  split
  · exact h.stay
  · rename_i task ht
    split
    · rename_i l w promise hphase
      have hrunning : task.phase.isFinished = false := by rw [hphase]; rfl
      have hlease : task.phase.lease? = some l := by rw [hphase]; rfl
      have hworker : task.phase.worker? = some w := by rw [hphase]; rfl
      have hheld := h.held t task ht
      split
      · exact h.stay
      · dsimp only
        obtain ⟨htasks, hcount, huuids, hclosed, hentries⟩ :=
          @searchWorker_frame host r w (validationInput task.policy) none
        have hnone : Touches (fun _ => False) (fun _ => False) r
            (r.searchWorker host w (validationInput task.policy) none).2 := touches_searchWorker _ _ _
        refine h.advance ht hrunning (by rw [hphase]; rfl) rfl htasks hcount hclosed hentries
          (Nat.le_of_eq huuids.symm) (touches_searchWorker _ _ _) ?_ ?_ ?_ ?_ ?_
        · rw [hphase] at hheld
          exact hheld.touched hnone (fun _ _ _ hf => hf) fun _ _ _ hf => hf
        · exact fun m hm => .inl (hlease.trans hm)
        · exact fun v hv => .inl (hworker.trans hv)
        · exact fun m hm => hlease.symm.trans hm
        · exact fun v hv => hworker.symm.trans hv
      · exact h.abandon ht hrunning hlease hworker _
    · rename_i l w promise hphase
      have hrunning : task.phase.isFinished = false := by rw [hphase]; rfl
      have hlease : task.phase.lease? = some l := by rw [hphase]; rfl
      have hworker : task.phase.worker? = some w := by rw [hphase]; rfl
      split
      · exact h.stay
      · split
        · exact h.abandon ht hrunning hlease hworker _
        · rename_i hclosed
          exact h.publish ht hphase (Bool.eq_false_iff.mpr hclosed)
      · exact h.abandon ht hrunning hlease hworker _
      · exact h.abandon ht hrunning hlease hworker _
    · exact h.stay

/-! ## §5 — the entries into the registry. -/

theorem Life.register (h : Life host r) (absoluteRoot : Json) (policyInput : Option Json) :
    Lives host r (r.register absoluteRoot policyInput).2 := by
  unfold Registry.register
  split
  · exact h.stay
  · split
    · exact h.stay
    · split
      · exact h.stay
      · rename_i policy _
        split
        · exact h.stay
        · rename_i hroom
          dsimp only
          set task : Task := { policy := policy, phase := .resolving }
          have hcase : ∀ (t : Nat) (task' : Task), (r.tasks ++ [task])[t]? = some task' →
              r.tasks[t]? = some task' ∨ task' = task := by
            intro t task' ht
            rcases Nat.lt_or_ge t r.tasks.length with hlt | hge
            · rw [List.getElem?_append_left hlt] at ht
              exact .inl ht
            · rw [List.getElem?_append_right hge] at ht
              exact .inr (List.mem_singleton.mp (List.mem_of_getElem? ht))
          have hregistered : ∀ e, Registry.Registered { r with
              registering := r.registering + 1, tasks := r.tasks ++ [task] } e ↔ r.Registered e := by
            intro e
            constructor
            · rintro ⟨task', hmem, hphase⟩
              rcases List.mem_append.mp hmem with hmem | hmem
              · exact ⟨task', hmem, hphase⟩
              · rw [List.mem_singleton.mp hmem] at hphase
                cases hphase
            · rintro ⟨task', hmem, hphase⟩
              exact ⟨task', List.mem_append_left _ hmem, hphase⟩
          refine ⟨{
            counted := ?_
            capacity := ?_
            emptied := h.emptied
            keys := h.keys
            named := h.named
            drawn := h.drawn
            registered := fun p hp => (hregistered _).mpr (h.registered p hp)
            alive := h.alive
            held := fun t task' ht => ?_
            leaseOnce := fun t t' task₁ task₂ l ht ht' hl hl' => ?_
            workerOnce := fun t t' task₁ task₂ w ht ht' hw hw' => ?_ }, ?_⟩
          · show r.registering + 1 = (r.tasks ++ [task]).countP _
            rw [List.countP_append, h.counted]
            rfl
          · have hcapacity := h.capacity
            show r.entries.length + (r.registering + 1) ≤ 32
            omega
          · rcases hcase t task' ht with ht | rfl
            · exact (h.held t task' ht).touched (P := fun _ => False) (Q := fun _ => False)
                (Touches.of_eq rfl rfl) (fun _ _ _ hf => hf) fun _ _ _ hf => hf
            · trivial
          · rcases hcase t task₁ ht with ht | rfl
            · rcases hcase t' task₂ ht' with ht' | rfl
              · exact h.leaseOnce t t' task₁ task₂ l ht ht' hl hl'
              · cases hl'
            · cases hl
          · rcases hcase t task₁ ht with ht | rfl
            · rcases hcase t' task₂ ht' with ht' | rfl
              · exact h.workerOnce t t' task₁ task₂ w ht ht' hw hw'
              · cases hw'
            · cases hw
          · exact {
              tasks := fun t task' ht => ⟨task',
                (List.getElem?_append_left (List.getElem?_eq_some_iff.mp ht).1).trans ht,
                Goes.refl _ task'.phase⟩
              released := fun l hl => hl
              disposed := fun w hw => hw
              closed := fun hc => ⟨hc, fun e he => (hregistered e).mp he⟩ }

theorem Life.search (h : Life host r) (input : Json) (signal : Option SignalId) :
    Lives host r (r.search host input signal).2 := by
  unfold Registry.search
  split
  · exact h.stay
  · split
    · exact h.stay
    · split
      · exact h.stay
      · rename_i request _ _ e _
        obtain ⟨htasks, hcount, huuids, hclosed, hentries⟩ :=
          @searchWorker_frame host r e.worker (searchInput e.registration.policy request) signal
        have htouches : Touches (fun _ => False) (fun _ => False) r
            (r.searchWorker host e.worker (searchInput e.registration.policy request) signal).2 :=
          touches_searchWorker _ _ _
        exact h.still htasks hcount huuids hclosed hentries (htouches.trans (Touches.of_eq rfl rfl))

theorem Life.onSearched (h : Life host r) (n : Nat) : Lives host r (r.onSearched host n) := by
  have hstill : ∀ searches, Lives host r { r with searches := searches } := fun searches =>
    h.still rfl rfl rfl rfl rfl (Touches.of_eq rfl rfl)
  unfold Registry.onSearched
  split
  · exact h.stay
  · split
    · exact h.stay
    · split
      · exact hstill _
      · exact hstill _
      · exact h.stay

/-- `shut` touches the lease and the worker of its entry, and closes both. -/
theorem touches_shut {e : Entry} (hp : P e.rootLease) (hq : Q e.worker) : Touches P Q r (r.shut host e) :=
  (touches_close hq).trans (touches_release hp)

theorem shut_closes {e : Entry} {b c : Bool} (h : r.LeaseIs e.rootLease b ∧ r.WorkerIs e.worker c) :
    (r.shut host e).LeaseIs e.rootLease true ∧ (r.shut host e).WorkerIs e.worker true :=
  ⟨leaseIs_released (r := r.drive host e.worker .close) h.1, workerIs_close h.2⟩

theorem Life.unregister (h : Life host r) (workspaceId : JsString) :
    Lives host r (r.unregister host workspaceId).2 := by
  unfold Registry.unregister
  split
  · exact h.stay
  · rename_i e hget
    obtain ⟨p, hfind, rfl⟩ := Option.map_eq_some_iff.mp hget
    have hp : p ∈ r.entries := List.mem_of_find?_eq_some hfind
    have hid : (p.1 == workspaceId) = true :=
      List.find?_some (p := fun q : JsString × Entry => q.1 == workspaceId) hfind
    have hout : p ∉ r.entries.filter (·.1 != workspaceId) := by
      intro hmem
      have hne := (List.mem_filter.mp hmem).2
      rw [bne, hid] at hne
      cases hne
    have htouches : Touches (fun l => l = p.2.rootLease) (fun w => w = p.2.worker) r (r.shut host p.2) :=
      touches_shut rfl rfl
    refine h.drop rfl rfl rfl (fun hc => hc) List.filter_sublist ?_
      (htouches.trans (Touches.of_eq rfl rfl)) ?_ ?_
    · intro hc
      have hnil : r.entries = [] := h.emptied hc
      rw [hnil] at hp
      cases hp
    · rintro l rfl
      exact ⟨p, hp, hout, rfl⟩
    · rintro w rfl
      exact ⟨p, hp, hout, rfl⟩

/-- Closing one entry after the other. -/
theorem shutAll_frame (items : List (JsString × Entry)) : ∀ r : Registry,
    (items.foldl (fun r p => r.shut host p.2) r).tasks = r.tasks ∧
      (items.foldl (fun r p => r.shut host p.2) r).registering = r.registering ∧
      (items.foldl (fun r p => r.shut host p.2) r).uuids = r.uuids ∧
      (items.foldl (fun r p => r.shut host p.2) r).closed = r.closed ∧
      Touches (fun l => ∃ p ∈ items, p.2.rootLease = l) (fun w => ∃ p ∈ items, p.2.worker = w) r
        (items.foldl (fun r p => r.shut host p.2) r) := by
  induction items with
  | nil => exact fun r => ⟨rfl, rfl, rfl, rfl, Touches.of_eq rfl rfl⟩
  | cons p items ih =>
      intro r
      obtain ⟨htasks, hcount, huuids, hclosed, htouches⟩ := ih (r.shut host p.2)
      refine ⟨htasks, hcount, huuids, hclosed, ?_⟩
      have hfirst : Touches (fun l => ∃ q ∈ p :: items, q.2.rootLease = l)
          (fun w => ∃ q ∈ p :: items, q.2.worker = w) r (r.shut host p.2) :=
        touches_shut ⟨p, List.mem_cons_self, rfl⟩ ⟨p, List.mem_cons_self, rfl⟩
      refine hfirst.trans (htouches.mono ?_ ?_)
      · rintro l ⟨q, hq, rfl⟩
        exact ⟨q, List.mem_cons_of_mem _ hq, rfl⟩
      · rintro w ⟨q, hq, rfl⟩
        exact ⟨q, List.mem_cons_of_mem _ hq, rfl⟩

theorem Life.close (h : Life host r) : Lives host r (r.close host) := by
  obtain ⟨htasks, hcount, huuids, hclosed, htouches⟩ :=
    @shutAll_frame host r.entries { r with closed := true }
  have hfirst : Touches (fun l => ∃ p ∈ r.entries, p.2.rootLease = l)
      (fun w => ∃ p ∈ r.entries, p.2.worker = w) r { r with closed := true } := Touches.of_eq rfl rfl
  refine h.drop htasks hcount huuids (fun _ => hclosed) (List.nil_sublist _) (fun _ => rfl)
    ((hfirst.trans htouches).trans (Touches.of_eq rfl rfl)) ?_ ?_
  · rintro l ⟨p, hp, rfl⟩
    exact ⟨p, hp, List.not_mem_nil, rfl⟩
  · rintro w ⟨p, hp, rfl⟩
    exact ⟨p, hp, List.not_mem_nil, rfl⟩

/-- **The step lemma.** -/
theorem Life.step (h : Life host r) (e : Event) : Lives host r (r.step host e) := by
  cases e with
  | register absoluteRoot policyInput => exact h.register absoluteRoot policyInput
  | realpath t canonical => exact h.onRealpath t canonical
  | opened t lease => exact h.onOpen t lease
  | stat t ok => exact h.onStat t ok
  | resume t => exact h.resume t
  | leaseClosed t ok => exact h.onLeaseClosed t ok
  | worker w e =>
      rw [Registry.step]
      split
      · exact h.stay
      · rename_i hcall
        have hne : e ≠ .close := by
          rintro rfl
          exact hcall rfl
        exact h.still rfl rfl rfl rfl rfl (touches_drive w hne)
  | search input signal => exact h.search input signal
  | searched n => exact h.onSearched n
  | unregister workspaceId => exact h.unregister workspaceId
  | close => exact h.close

theorem life_create (host : Host) : Life host {} where
  counted := rfl
  capacity := by decide
  emptied := fun _ => rfl
  keys := List.nodup_nil
  named := List.forall_mem_nil _
  drawn := List.forall_mem_nil _
  registered := List.forall_mem_nil _
  alive := List.forall_mem_nil _
  held := fun _ _ h => by cases h
  leaseOnce := fun _ _ _ _ _ h => by cases h
  workerOnce := fun _ _ _ _ _ h => by cases h

/-- **The run lemma.** -/
theorem life_after (host : Host) (events : List Event) : Life host (Registry.after host events) :=
  run_invariant (life_create host) (fun e _ h => (h.step e).1) events

theorem later_after (host : Host) (events more : List Event) :
    (Registry.after host events).Later (Registry.after host (events ++ more)) := by
  rw [Registry.after, Registry.after, run_append]
  refine (@run_stable _ _ (Registry.step host) _ (Life host) (Registry.Later _)
    (fun e _ h => (h.step e).1) (fun e s h hl => hl.trans (h.step e).2) ?_ (Later.refl _) more)
  exact life_after host events

/-! ## §6 — the lifecycle. -/

/-- A search that is let through: the entry it looked up has both ids of the request, and its worker is
asked under its policy. -/
structure Asks (host : Host) (input : Json) (signal : Option SignalId) (r r' : Registry)
    (request : SearchRequest) (e : Entry) : Prop where
  parsed : searchSchema host input = some request
  entry : (request.workspaceId, e) ∈ r.entries
  workspaceId : e.registration.workspaceId = request.workspaceId
  scopePolicyId : e.registration.scopePolicyId = request.scopePolicyId
  workers : r'.workers
    = (r.searchWorker host e.worker (searchInput e.registration.policy request) signal).2.workers
  searches : ∃ promise, r'.searches
    = r.searches ++ [{ entry := e, scope := searchScope e.registration.policy request, promise := promise }]

/-- What a run of the registry guarantees: about the state behind `events`, the state behind any `more` of
them, and the next step. -/
structure Lifecycle (host : Host) (events : List Event) : Prop where
  capacity : (Registry.after host events).entries.length + (Registry.after host events).inFlight ≤ 32
  counter : (Registry.after host events).registering = (Registry.after host events).inFlight
  /-- After `close` the map is empty, and nothing is registered any more. -/
  closed : ∀ more, (Registry.after host (events ++ .close :: more)).entries = [] ∧
    ∀ e, (Registry.after host (events ++ .close :: more)).Registered e →
      (Registry.after host events).Registered e
  /-- A call that has thrown has closed the worker it created and the lease it opened. -/
  cleanup : ∀ (more : List Event) (t : Nat) (task task' : Task) (code : Option WorkspaceErrorCode),
    (Registry.after host events).tasks[t]? = some task →
    (Registry.after host (events ++ more)).tasks[t]? = some task' → task'.phase = .rejected code →
      (∀ l, task.phase.lease? = some l → (Registry.after host (events ++ more)).LeaseIs l true) ∧
        ∀ w, task.phase.worker? = some w → (Registry.after host (events ++ more)).WorkerIs w true
  /-- An entry of the map has an open lease and an open worker, which no other entry has. -/
  alive : ∀ p ∈ (Registry.after host events).entries,
    (Registry.after host events).LeaseIs p.2.rootLease false ∧
      (Registry.after host events).WorkerIs p.2.worker false ∧
      ∀ p' ∈ (Registry.after host events).entries,
        p'.2.rootLease = p.2.rootLease ∨ p'.2.worker = p.2.worker → p' = p
  /-- A registration enters the map with the step that publishes it. -/
  enters : ∀ (event : Event) (e : Entry), ¬ (Registry.after host events).Registered e →
    ((Registry.after host events).step host event).Registered e →
      (e.registration.workspaceId, e) ∈ ((Registry.after host events).step host event).entries
  /-- It stays there until its `unregister` or `close`. -/
  stays : ∀ p ∈ (Registry.after host events).entries, ∀ event, event ≠ .unregister p.1 →
    event ≠ .close → p ∈ ((Registry.after host events).step host event).entries
  /-- An entry that leaves the map has its lease and its worker closed. -/
  leaves : ∀ p ∈ (Registry.after host events).entries, ∀ event,
    p ∉ ((Registry.after host events).step host event).entries →
      ((Registry.after host events).step host event).LeaseIs p.2.rootLease true ∧
        ((Registry.after host events).step host event).WorkerIs p.2.worker true
  /-- A search asks the worker of the entry with both ids under its policy, or nobody; -/
  searches : ∀ (input : Json) (signal : Option SignalId),
    (Registry.after host events).step host (.search input signal) = Registry.after host events ∨
      ∃ request e, Asks host input signal (Registry.after host events)
        ((Registry.after host events).step host (.search input signal)) request e
  /-- and it is answered with a response of that worker. -/
  answers : ∀ s ∈ (Registry.after host events).searches, (Registry.after host events).Answered s

/-- The lease or the worker of an entry is that of no other. -/
theorem Life.exclusive (h : Life host r) {p p' : JsString × Entry} (hp : p ∈ r.entries)
    (hp' : p' ∈ r.entries) (hsame : p'.2.rootLease = p.2.rootLease ∨ p'.2.worker = p.2.worker) : p' = p := by
  obtain ⟨task, hmem, hphase⟩ := h.registered p hp
  obtain ⟨task', hmem', hphase'⟩ := h.registered p' hp'
  obtain ⟨t, ht⟩ := List.getElem?_of_mem hmem
  obtain ⟨t', ht'⟩ := List.getElem?_of_mem hmem'
  have htt : t = t' := by
    rcases hsame with hlease | hworker
    · exact h.leaseOnce t t' task task' p.2.rootLease ht ht' (by rw [hphase]; rfl)
        (by rw [hphase', ← hlease]; rfl)
    · exact h.workerOnce t t' task task' p.2.worker ht ht' (by rw [hphase]; rfl)
        (by rw [hphase', ← hworker]; rfl)
  subst htt
  obtain rfl : task = task' := Option.some.inj (ht.symm.trans ht')
  have heq : p.2 = p'.2 := Phase.published.inj (hphase.symm.trans hphase')
  refine Prod.ext ?_ heq.symm
  rw [← h.named p hp, ← h.named p' hp', heq]

/-- A step without publication leaves the map alone. -/
structure Idle (r r' : Registry) : Prop where
  entries : r'.entries = r.entries
  registered : ∀ e, r'.Registered e → r.Registered e

theorem Idle.refl (r : Registry) : r.Idle r := ⟨rfl, fun _ h => h⟩

theorem Idle.trans (h : r.Idle r') (h' : r'.Idle r'') : r.Idle r'' :=
  ⟨h'.entries.trans h.entries, fun e he => h.registered e (h'.registered e he)⟩

theorem Idle.of_eq (htasks : r'.tasks = r.tasks) (hentries : r'.entries = r.entries) : r.Idle r' := by
  refine ⟨hentries, fun e he => ?_⟩
  rw [Registered, htasks] at he
  exact he

theorem idle_setPhase {t : Nat} {phase : Phase} (hphase : ∀ e, phase ≠ .published e) :
    r.Idle (r.setPhase t phase) := by
  refine ⟨rfl, ?_⟩
  rintro e ⟨task', hmem, he⟩
  obtain ⟨v, hv⟩ := List.getElem?_of_mem hmem
  rw [getElem?_modified rfl, Option.map_eq_some_iff] at hv
  obtain ⟨old, hold, rfl⟩ := hv
  by_cases htv : t = v
  · rw [if_pos htv] at he
    exact absurd he (hphase e)
  · rw [if_neg htv] at he
    exact ⟨old, List.mem_of_getElem? hold, he⟩

theorem idle_advance {q : Registry} {t : Nat} {phase : Phase} (htasks : q.tasks = r.tasks)
    (hentries : q.entries = r.entries) (hphase : ∀ e, phase ≠ .published e) :
    r.Idle (q.setPhase t phase) :=
  (Idle.of_eq htasks hentries).trans (idle_setPhase hphase)

theorem idle_abandon (t : Nat) (lease : Option LeaseId) (worker : Option WorkerId)
    (code : WorkspaceErrorCode) : r.Idle (r.abandon host t lease worker code) := by
  have hclosed : r.Idle ((r.closeWorker host worker).closeLease lease) := by
    apply Idle.of_eq
    · cases worker <;> cases lease <;> rfl
    · cases worker <;> cases lease <;> rfl
  exact hclosed.trans (idle_setPhase fun e he => by cases he)

/-- What a step does to the map. -/
inductive Maps (host : Host) (event : Event) (r r' : Registry) : Prop
  | idle (h : r.Idle r')
  | published (t : Nat) (task : Task) (l : LeaseId) (w : WorkerId) (promise : Promised)
      (ht : r.tasks[t]? = some task) (hphase : task.phase = .validating l w promise)
      (heq : r' = r.publish host t task.policy l w)
  | unregistered (p : JsString × Entry) (hp : p ∈ r.entries) (hevent : event = .unregister p.1)
      (heq : r' = { r.shut host p.2 with entries := r.entries.filter (·.1 != p.1) })
  | closed (hevent : event = .close) (heq : r' = r.close host)

theorem idle_register (absoluteRoot : Json) (policyInput : Option Json) :
    r.Idle (r.register absoluteRoot policyInput).2 := by
  rw [Registry.register]
  split
  · exact .refl r
  · split
    · exact .refl r
    · split
      · exact .refl r
      · split
        · exact .refl r
        · refine ⟨rfl, ?_⟩
          rintro e ⟨task, hmem, hphase⟩
          rcases List.mem_append.mp hmem with hmem | hmem
          · exact ⟨task, hmem, hphase⟩
          · rw [List.mem_singleton.mp hmem] at hphase
            cases hphase

theorem idle_realpath (t : Nat) (canonical : Option JsString) : r.Idle (r.onRealpath host t canonical) := by
  unfold Registry.onRealpath
  split
  · exact idle_setPhase fun e he => by cases he
  · exact idle_abandon t none none _
  · exact .refl r

theorem idle_opened (t : Nat) (lease : Option Lease) : r.Idle (r.onOpen host t lease) := by
  unfold Registry.onOpen
  split
  · exact idle_advance rfl rfl fun e he => by cases he
  · exact idle_abandon t none none _
  · exact .refl r

theorem idle_stat (t : Nat) (ok : Bool) : r.Idle (r.onStat host t ok) := by
  rw [Registry.onStat]
  split
  · split
    · exact .refl r
    · split
      · exact idle_abandon t _ none _
      · split
        · exact idle_abandon t _ none _
        · split
          · exact idle_abandon t _ none _
          · exact idle_advance rfl rfl fun e he => by cases he
  · exact .refl r

/-- Only from behind the validation is an entry published. -/
theorem maps_resume (t : Nat) : Maps host event r (r.resume host t) := by
  rw [Registry.resume]
  split
  · exact .idle (.refl r)
  · rename_i task ht
    split
    · split
      · exact .idle (.refl r)
      · obtain ⟨htasks, -, -, -, hentries⟩ := @searchWorker_frame host r _ (validationInput task.policy) none
        exact .idle (idle_advance htasks hentries fun e he => by cases he)
      · exact .idle (idle_abandon t _ _ _)
    · rename_i l w promise hphase
      split
      · exact .idle (.refl r)
      · split
        · exact .idle (idle_abandon t _ _ _)
        · exact .published t task l w promise ht hphase rfl
      · exact .idle (idle_abandon t _ _ _)
      · exact .idle (idle_abandon t _ _ _)
    · exact .idle (.refl r)

theorem idle_search (input : Json) (signal : Option Client.SignalId) : r.Idle (r.search host input signal).2 := by
  rw [Registry.search]
  split
  · exact .refl r
  · split
    · exact .refl r
    · split
      · exact .refl r
      · rename_i request _ _ e _
        obtain ⟨htasks, -, -, -, hentries⟩ :=
          @searchWorker_frame host r e.worker (searchInput e.registration.policy request) signal
        exact .of_eq htasks hentries

theorem idle_searched (n : Nat) : r.Idle (r.onSearched host n) := by
  rw [Registry.onSearched]
  split
  · exact .refl r
  · split
    · exact .refl r
    · split
      · exact .of_eq rfl rfl
      · exact .of_eq rfl rfl
      · exact .refl r

theorem maps_unregister (workspaceId : JsString) :
    Maps host (.unregister workspaceId) r (r.unregister host workspaceId).2 := by
  rw [Registry.unregister]
  split
  · exact .idle (.refl r)
  · rename_i e hget
    obtain ⟨p, hfind, rfl⟩ := Option.map_eq_some_iff.mp hget
    have hid : (p.1 == workspaceId) = true :=
      List.find?_some (p := fun q : JsString × Entry => q.1 == workspaceId) hfind
    obtain rfl : p.1 = workspaceId := beq_iff_eq.mp hid
    exact .unregistered p (List.mem_of_find?_eq_some hfind) rfl rfl

theorem maps_step (event : Event) : Maps host event r (r.step host event) := by
  cases event with
  | register absoluteRoot policyInput => exact .idle (idle_register absoluteRoot policyInput)
  | realpath t canonical => exact .idle (idle_realpath t canonical)
  | opened t lease => exact .idle (idle_opened t lease)
  | stat t ok => exact .idle (idle_stat t ok)
  | resume t => exact maps_resume t
  | leaseClosed t ok =>
      refine .idle ?_
      rw [Registry.step, Registry.onLeaseClosed]
      split
      · exact idle_advance rfl rfl fun e he => by cases he
      · exact .refl r
  | worker w e =>
      refine .idle ?_
      rw [Registry.step]
      split
      · exact .refl r
      · exact .of_eq rfl rfl
  | search input signal => exact .idle (idle_search input signal)
  | searched n => exact .idle (idle_searched n)
  | unregister workspaceId => exact maps_unregister workspaceId
  | close => exact .closed rfl rfl

/-- An entry of another id stays in the map when an entry is set. -/
theorem mem_set_of_mem {id : JsString} {e : Entry} {p : JsString × Entry} (hp : p ∈ r.entries)
    (hne : p.1 ≠ id) : p ∈ (r.set id e).entries := by
  rw [Registry.set]
  dsimp only
  split
  · refine List.mem_map.mpr ⟨p, hp, ?_⟩
    rw [if_neg fun heq => hne (beq_iff_eq.mp heq)]
  · exact List.mem_append_left _ hp

theorem mem_set_self (id : JsString) (e : Entry) : (id, e) ∈ (r.set id e).entries := by
  rw [Registry.set]
  dsimp only
  split
  · rename_i hany
    obtain ⟨p, hp, hid⟩ := List.any_eq_true.mp hany
    refine List.mem_map.mpr ⟨p, hp, ?_⟩
    rw [if_pos hid, beq_iff_eq.mp hid]
  · exact List.mem_append_right _ List.mem_cons_self

/-- The new id is not that of an entry. -/
theorem Life.mem_publish (h : Life host r) (huuid : Function.Injective host.uuid) {p : JsString × Entry}
    (hp : p ∈ r.entries) (t : Nat) (policy : Policy) (l : LeaseId) (w : WorkerId) :
    p ∈ (r.publish host t policy l w).entries := by
  refine mem_set_of_mem (r := { r with uuids := r.uuids + 2, registering := r.registering - 1 }) hp ?_
  obtain ⟨k, hk, hdrawn⟩ := h.drawn p hp
  rw [hdrawn]
  exact fun hsame => Nat.ne_of_lt hk (huuid hsame)

theorem Life.stays (h : Life host r) (huuid : Function.Injective host.uuid) {p : JsString × Entry}
    (hp : p ∈ r.entries) {event : Event} (hunregister : event ≠ .unregister p.1)
    (hclose : event ≠ .close) : p ∈ (r.step host event).entries := by
  cases @maps_step host r event with
  | idle hidle =>
      rw [hidle.entries]
      exact hp
  | published t task l w promise ht hphase heq =>
      rw [heq]
      exact h.mem_publish huuid hp t task.policy l w
  | unregistered p' hp' hevent heq =>
      rw [heq]
      refine List.mem_filter.mpr ⟨hp, bne_iff_ne.mpr fun hsame => hunregister ?_⟩
      rw [hevent, hsame]
  | closed hevent heq => exact absurd hevent hclose

/-- Every lease and worker of the entries that are closed together is closed. -/
theorem shutAll_closes (items : List (JsString × Entry)) : ∀ r : Registry, ∀ p ∈ items,
    (∃ b, r.LeaseIs p.2.rootLease b) → (∃ b, r.WorkerIs p.2.worker b) →
      (items.foldl (fun r p => r.shut host p.2) r).LeaseIs p.2.rootLease true ∧
        (items.foldl (fun r p => r.shut host p.2) r).WorkerIs p.2.worker true := by
  induction items with
  | nil => exact fun _ _ hp => by cases hp
  | cons q items ih =>
      intro r p hp hlease hworker
      obtain ⟨b, hb⟩ := hlease
      obtain ⟨c, hc⟩ := hworker
      rcases List.mem_cons.mp hp with rfl | hp
      · obtain ⟨-, -, -, -, htouches⟩ := @shutAll_frame host items (r.shut host p.2)
        obtain ⟨hreleased, hdisposed⟩ := @shut_closes host r p.2 b c ⟨hb, hc⟩
        exact ⟨htouches.released _ hreleased, htouches.disposed _ hdisposed⟩
      · have htouches : Touches (fun l => l = q.2.rootLease) (fun w => w = q.2.worker) r
            (r.shut host q.2) := touches_shut rfl rfl
        refine ih (r.shut host q.2) p hp ?_ ?_
        · exact leaseIs_of_lt (Nat.lt_of_lt_of_le (lt_of_leaseIs hb) htouches.leases)
        · exact workerIs_of_lt (Nat.lt_of_lt_of_le (lt_of_workerIs hc) htouches.workers)

theorem Life.leaves (h : Life host r) (huuid : Function.Injective host.uuid) {p : JsString × Entry}
    (hp : p ∈ r.entries) {event : Event} (hout : p ∉ (r.step host event).entries) :
    (r.step host event).LeaseIs p.2.rootLease true ∧ (r.step host event).WorkerIs p.2.worker true := by
  obtain ⟨hlease, hworker⟩ := h.alive p hp
  cases @maps_step host r event with
  | idle hidle =>
      rw [hidle.entries] at hout
      exact absurd hp hout
  | published t task l w promise ht hphase heq =>
      rw [heq] at hout
      exact absurd (h.mem_publish huuid hp t task.policy l w) hout
  | unregistered p' hp' hevent heq =>
      rw [heq] at hout ⊢
      have hid : p.1 = p'.1 := by
        by_contra hne
        exact hout (List.mem_filter.mpr ⟨hp, bne_iff_ne.mpr hne⟩)
      obtain rfl : p = p' := List.inj_on_of_nodup_map h.keys hp hp' hid
      exact shut_closes ⟨hlease, hworker⟩
  | closed hevent heq =>
      rw [heq]
      exact shutAll_closes r.entries { r with closed := true } p hp ⟨_, hlease⟩ ⟨_, hworker⟩

theorem enters_step {event : Event} {e : Entry} (hnot : ¬ r.Registered e)
    (hreg : (r.step host event).Registered e) :
    (e.registration.workspaceId, e) ∈ (r.step host event).entries := by
  cases @maps_step host r event with
  | idle hidle => exact absurd (hidle.registered e hreg) hnot
  | published t task l w promise ht hphase heq =>
      rw [heq] at hreg ⊢
      obtain ⟨task', hmem, hpublished⟩ := hreg
      obtain ⟨v, hv⟩ := List.getElem?_of_mem hmem
      rw [getElem?_modified (r := r) (t := t) rfl, Option.map_eq_some_iff] at hv
      obtain ⟨old, hold, rfl⟩ := hv
      by_cases htv : t = v
      · rw [if_pos htv] at hpublished
        obtain rfl := Phase.published.inj hpublished
        exact mem_set_self (r := { r with uuids := r.uuids + 2, registering := r.registering - 1 }) _ _
      · rw [if_neg htv] at hpublished
        exact absurd ⟨old, List.mem_of_getElem? hold, hpublished⟩ hnot
  | unregistered p hp hevent heq =>
      rw [heq] at hreg
      exact absurd hreg hnot
  | closed hevent heq =>
      rw [heq] at hreg
      obtain ⟨htasks, -⟩ := @shutAll_frame host r.entries { r with closed := true }
      have hreg' : Registered
          (r.entries.foldl (fun (r : Registry) p => r.shut host p.2) { r with closed := true }) e :=
        hreg
      rw [Registered, htasks] at hreg'
      exact absurd hreg' hnot

theorem Life.asks (h : Life host r) (input : Json) (signal : Option SignalId) :
    r.step host (.search input signal) = r ∨
      ∃ request e, Asks host input signal r (r.step host (.search input signal)) request e := by
  show (r.search host input signal).2 = r ∨
    ∃ request e, Asks host input signal r (r.search host input signal).2 request e
  unfold Registry.search
  split
  · exact .inl rfl
  · split
    · exact .inl rfl
    · rename_i request hparsed
      split
      · exact .inl rfl
      · rename_i e hget
        obtain ⟨hsome, hpolicy⟩ := Option.filter_eq_some_iff.mp hget
        obtain ⟨p, hfind, rfl⟩ := Option.map_eq_some_iff.mp hsome
        have hp : p ∈ r.entries := List.mem_of_find?_eq_some hfind
        have hid : p.1 = request.workspaceId := beq_iff_eq.mp
          (List.find?_some (p := fun q : JsString × Entry => q.1 == request.workspaceId) hfind)
        refine .inr ⟨request, p.2, hparsed, ?_, (h.named p hp).trans hid, beq_iff_eq.mp hpolicy, rfl, ?_⟩
        · rw [← hid]
          exact hp
        · refine ⟨(r.searchWorker host p.2.worker (searchInput p.2.registration.policy request)
            signal).1, ?_⟩
          show (r.searchWorker host p.2.worker (searchInput p.2.registration.policy request)
            signal).2.searches ++ [_] = _
          rw [searchWorker_searches]

/-- **The lifecycle of registrations**, in whatever order the calls and their awaits go on, as long as
`randomUUID` does not repeat itself. -/
theorem lifecycle_after (host : Host) (huuid : Function.Injective host.uuid) (events : List Event) :
    Lifecycle host events := by
  have h := life_after host events
  exact {
    capacity := by
      rw [← h.counted]
      exact h.capacity
    counter := h.counted
    closed := fun more => by
      have hlater := later_after host (events ++ [.close]) more
      have hrun : Registry.after host (events ++ [.close]) = (Registry.after host events).close host := by
        rw [Registry.after, Registry.after, run_append]
        rfl
      rw [List.append_assoc, List.singleton_append, hrun] at hlater
      obtain ⟨htasks, -, -, hshut, -⟩ := @shutAll_frame host (Registry.after host events).entries
        { Registry.after host events with closed := true }
      obtain ⟨hclosed, hback⟩ := hlater.closed hshut
      refine ⟨(life_after host _).emptied hclosed, fun e he => ?_⟩
      obtain ⟨task, hmem, hphase⟩ := hback e he
      exact ⟨task, htasks ▸ hmem, hphase⟩
    cleanup := fun more t task task' code ht ht' hcode => by
      obtain ⟨later, hlater, hgoes⟩ := (later_after host events more).tasks t task ht
      obtain rfl : later = task' := Option.some.inj (hlater.symm.trans ht')
      constructor
      · intro l hl
        rcases hgoes.lease l hl with hkept | ⟨-, hreleased⟩
        · rw [hcode] at hkept
          cases hkept
        · exact hreleased
      · intro w hw
        rcases hgoes.worker w hw with hkept | ⟨-, hdisposed⟩
        · rw [hcode] at hkept
          cases hkept
        · exact hdisposed
    alive := fun p hp => by
      obtain ⟨hlease, hworker⟩ := h.alive p hp
      exact ⟨hlease, hworker, fun p' hp' hsame => h.exclusive hp hp' hsame⟩
    enters := fun event e hnot hreg => enters_step hnot hreg
    stays := fun p hp event hunregister hclose => h.stays huuid hp hunregister hclose
    leaves := fun p hp event hout => h.leaves huuid hp hout
    searches := fun input signal => h.asks input signal
    answers := fun s hs => ((sound_after host events).searches s hs).2 }

/-- A version 4 UUID for every number. -/
def sampleUuid (n : Nat) : JsString :=
  encode ("00000000-0000-4000-8000-".toList ++ Nat.toDigits 10 (100000000000 + n))

theorem sampleUuid_injective : Function.Injective sampleUuid := by
  intro n k h
  have hdigits : Nat.toDigits 10 (100000000000 + n) = Nat.toDigits 10 (100000000000 + k) :=
    List.append_cancel_left (encode_injective h)
  have hvalue : 100000000000 + n = 100000000000 + k := by
    calc 100000000000 + n = Nat.ofDigitChars 10 (Nat.toDigits 10 (100000000000 + n)) 0 :=
          Nat.ofDigitChars_ten_toDigits.symm
      _ = Nat.ofDigitChars 10 (Nat.toDigits 10 (100000000000 + k)) 0 := by rw [hdigits]
      _ = 100000000000 + k := Nat.ofDigitChars_ten_toDigits
  exact Nat.add_left_cancel hvalue

/-- A host that draws the sample UUIDs. -/
def sampleHost : Host where
  sha256 := Sha256.digest
  uuid := sampleUuid
  isUuid := fun id => id.length = 36
  runtime := fun _ =>
    { clock := fun _ => 0
      pid := fun _ => some 7
      parse := fun body => (Utf8.decode body).bind Json.parse }

/-- A message behind its length. -/
def sampleFrame (value : Json) : Bytes :=
  Client.be32 (Utf8.encode (Json.print value)).length ++ Utf8.encode (Json.print value)

/-- The hello of the root with device 1 and an inode. -/
def sampleHello (inode : String) : Json :=
  objectOf [("v", some (.nat 1)), ("status", some (.str (units "ready"))), ("pid", some (.nat 7)),
    ("matcher", some (.str (units "grep-regex-0.1.14"))), ("rootDev", some (.str (units "1"))),
    ("rootIno", some (.str (units inode)))]

/-- The reply to a scope validation, or to a search that finds nothing. -/
def sampleReply (id : String) : Json :=
  objectOf [("v", some (.nat 1)), ("id", some (.str (units id))), ("status", some (.str (units "ok"))),
    ("coverage", some (.str (units "complete"))), ("reasons", some (.arr [])), ("matches", some (.arr [])),
    ("counts", some (objectOf [("visited", some (.nat 0)), ("searched", some (.nat 0)),
      ("excluded", some (.nat 0)), ("failed", some (.nat 0)), ("bytesRead", some (.nat 0))])),
    ("elapsedMs", some (.nat 0)), ("policySnapshotHash", some (.str (List.replicate 64 (unit '0')))),
    ("matcherVersion", some (.str (units "grep-regex-0.1.14")))]

/-- A registration from its call to its publication, while another one fails at its `realpath`. -/
def sampleEvents : List Event :=
  [.register (.str (units "/w")) none, .register (.str (units "/gone")) none,
    .realpath 0 (some (units "/w")), .realpath 1 none, .opened 0 (some ⟨1, 2, true, false⟩), .stat 0 true,
    .leaseClosed 1 true, .worker 0 (.data 0 (sampleFrame (sampleHello "2"))), .resume 0,
    .worker 0 (.data 0 (sampleFrame (sampleReply "q-1"))), .resume 0]

/-- After it a second registration, and a search of the first root that is answered. -/
def busyEvents : List Event :=
  sampleEvents ++ [.register (.str (units "/v")) none, .realpath 2 (some (units "/v")),
    .opened 2 (some ⟨1, 3, true, false⟩),
    .search (objectOf [("workspaceId", some (.str (sampleUuid 0))),
      ("scopePolicyId", some (.str (sampleUuid 1))), ("pattern", some (.str (units "a")))]) none,
    .stat 2 true, .worker 1 (.data 0 (sampleFrame (sampleHello "3"))), .resume 2,
    .worker 0 (.data 0 (sampleFrame (sampleReply "q-2"))),
    .worker 1 (.data 0 (sampleFrame (sampleReply "q-1"))), .searched 0, .resume 2]

/-- Two roots are registered and a search of the first is answered; `unregister` of the second closes its
lease and its worker and leaves the first one in the map, which `close` empties. -/
theorem lifecycle_after_busy : ∃ p q, (Registry.after sampleHost busyEvents).entries = [p, q] ∧
    (Registry.after sampleHost busyEvents).registering = 0 ∧
    (∃ s, (Registry.after sampleHost busyEvents).searches = [s] ∧ s.answer.isSome = true ∧
      (Registry.after sampleHost busyEvents).Answered s) ∧
    (∀ e ∈ [p, q], (Registry.after sampleHost busyEvents).LeaseIs e.2.rootLease false ∧
      (Registry.after sampleHost busyEvents).WorkerIs e.2.worker false) ∧
    p ∈ ((Registry.after sampleHost busyEvents).step sampleHost (.unregister q.1)).entries ∧
    ((Registry.after sampleHost busyEvents).step sampleHost (.unregister q.1)).LeaseIs q.2.rootLease true ∧
    ((Registry.after sampleHost busyEvents).step sampleHost (.unregister q.1)).WorkerIs q.2.worker true ∧
    (Registry.after sampleHost (busyEvents ++ [.close])).entries = [] := by
  have hlife := lifecycle_after sampleHost sampleUuid_injective busyEvents
  obtain ⟨hentries, hcount, hsearches, hleft⟩ :
      (Registry.after sampleHost busyEvents).entries.map (·.1) = [sampleUuid 0, sampleUuid 2] ∧
      (Registry.after sampleHost busyEvents).registering = 0 ∧
      (Registry.after sampleHost busyEvents).searches.map (·.answer.isSome) = [true] ∧
      ((Registry.after sampleHost busyEvents).step sampleHost (.unregister (sampleUuid 2))).entries.map
        (·.1) = [sampleUuid 0] := by decide +kernel
  have hids : sampleUuid 0 ≠ sampleUuid 2 := fun h => absurd (sampleUuid_injective h) (by decide)
  obtain ⟨p, rest, hmap, hp, hrest⟩ := List.map_eq_cons_iff.1 hentries
  obtain ⟨q, none, rfl, hq, hnone⟩ := List.map_eq_cons_iff.1 hrest
  obtain rfl := List.map_eq_nil_iff.1 hnone
  obtain ⟨s, others, hs, hanswer, hothers⟩ := List.map_eq_cons_iff.1 hsearches
  obtain rfl := List.map_eq_nil_iff.1 hothers
  have hmem : ∀ e ∈ [p, q], e ∈ (Registry.after sampleHost busyEvents).entries := fun e he => hmap ▸ he
  have hpmem := hmem p List.mem_cons_self
  have hqmem := hmem q (List.mem_cons_of_mem p List.mem_cons_self)
  have hsmem : s ∈ (Registry.after sampleHost busyEvents).searches := by
    rw [hs]
    exact List.mem_singleton_self s
  rw [← hq] at hleft
  have hgone : q ∉ ((Registry.after sampleHost busyEvents).step sampleHost (.unregister q.1)).entries := by
    intro hin
    have hkey := List.mem_map_of_mem (f := fun e : JsString × Entry => e.1) hin
    rw [hleft, hq] at hkey
    exact hids (List.mem_singleton.1 hkey).symm
  obtain ⟨hlease, hworker⟩ := hlife.leaves q hqmem _ hgone
  refine ⟨p, q, hmap, hcount, ⟨s, hs, hanswer, hlife.answers s hsmem⟩, fun e he => ?_, ?_, hlease,
    hworker, (hlife.closed []).1⟩
  · obtain ⟨hopen, hlives, -⟩ := hlife.alive e (hmem e he)
    exact ⟨hopen, hlives⟩
  · apply hlife.stays p hpmem
    · intro heq
      rw [hp, hq] at heq
      exact hids (Event.unregister.inj heq).symm
    · intro heq
      cases heq

end Registry

end JevGrep.Workspace
