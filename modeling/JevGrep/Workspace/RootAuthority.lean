/-
# `JevGrep.Workspace.RootAuthority` — a registration keeps the root it was made for.

Every worker of a registry run is behind a run of its own, started with the identity on its lease
(`Sound`), so what `JevGrep.Client.Pinning` proves about a worker holds of it. Leases keep their identity,
workers their lease and traces their entries (`Extends`), so this lasts as long as the registry runs.
-/
import JevGrep.Workspace.Registry
import JevGrep.Client.Pinning

namespace JevGrep.Workspace

open JevGrep.Lib JevGrep.Lib.Schema JevGrep.Lib.Transition
open JevGrep.Contracts (JsString)
open JevGrep.Worker (Bytes)
open JevGrep.Client (WorkerScope WorkerResponse WorkerErrorCode Machine Promised SignalId CallId ChildId
  Grows Gone Pinned)

/-! ## §1 — what lasts, and what holds. -/

namespace Registry

/-- Worker `w` was created with the identity of lease `l`. -/
def Owns (r : Registry) (w : WorkerId) (l : LeaseId) : Prop :=
  ∃ slot, r.workers[w]? = some slot ∧ slot.lease = l

/-- A `register` call returned this entry's registration. -/
def Registered (r : Registry) (e : Entry) : Prop := ∃ task ∈ r.tasks, task.phase = .published e

/-- What every later state of a registry keeps. -/
structure Extends (r r' : Registry) : Prop where
  leases : ∀ (l : LeaseId) (lease : Lease), r.leases[l]? = some lease →
    ∃ lease' : Lease, r'.leases[l]? = some lease' ∧ lease'.identity = lease.identity
  workers : ∀ (w : WorkerId) (slot : RootWorker), r.workers[w]? = some slot →
    ∃ slot' : RootWorker, r'.workers[w]? = some slot' ∧ slot'.lease = slot.lease ∧
      Grows slot.machine slot'.machine
  registered : ∀ e, r.Registered e → r'.Registered e

/-- The phase names a worker only together with the lease it was created for. -/
def Owned (r : Registry) : Phase → Prop
  | .opening l w _ | .validating l w _ => r.Owns w l
  | .published e => r.Owns e.worker e.rootLease
  | _ => True

/-- A search that returned has its response from the worker of its entry. -/
def Answered (r : Registry) (s : Search) : Prop :=
  ∀ a, s.answer = some (.ok a) → ∃ call slot, s.promise = .later call ∧
    r.workers[s.entry.worker]? = some slot ∧ Client.Entry.resolved call a.result ∈ slot.machine.trace

/-- **The invariant**: every worker belongs to the lease it was created for, and calls and searches to
theirs. -/
structure Sound (host : Host) (r : Registry) : Prop where
  workers : ∀ w slot, r.workers[w]? = some slot → ∃ lease, r.leases[slot.lease]? = some lease ∧
    ∃ events, slot.machine = Machine.after (host.runtime w) (some lease.identity) events
  tasks : ∀ task ∈ r.tasks, r.Owned task.phase
  entries : ∀ p ∈ r.entries, r.Registered p.2
  searches : ∀ s ∈ r.searches, r.Registered s.entry ∧ r.Answered s

/-! ## §2 — later states. -/

variable {host : Host} {r r' r'' : Registry}

theorem Extends.refl (r : Registry) : r.Extends r where
  leases := fun _ lease h => ⟨lease, h, rfl⟩
  workers := fun _ slot h => ⟨slot, h, rfl, Grows.refl _⟩
  registered := fun _ h => h

theorem Extends.trans (h : r.Extends r') (h' : r'.Extends r'') : r.Extends r'' where
  leases := fun l lease hl => by
    obtain ⟨lease', hl', hid⟩ := h.leases l lease hl
    obtain ⟨lease'', hl'', hid'⟩ := h'.leases l lease' hl'
    exact ⟨lease'', hl'', hid'.trans hid⟩
  workers := fun w slot hw => by
    obtain ⟨slot', hw', hl, hg⟩ := h.workers w slot hw
    obtain ⟨slot'', hw'', hl', hg'⟩ := h'.workers w slot' hw'
    exact ⟨slot'', hw'', hl'.trans hl, hg.trans hg'⟩
  registered := fun e he => h'.registered e (h.registered e he)

theorem Extends.owns (h : r.Extends r') {w : WorkerId} {l : LeaseId} (ho : r.Owns w l) :
    r'.Owns w l := by
  obtain ⟨slot, hw, rfl⟩ := ho
  obtain ⟨slot', hw', hl, -⟩ := h.workers w slot hw
  exact ⟨slot', hw', hl⟩

theorem Extends.owned (h : r.Extends r') {phase : Phase} (ho : r.Owned phase) :
    r'.Owned phase := by
  cases phase with
  | opening | validating => exact h.owns ho
  | published e => exact h.owns ho
  | _ => exact ho

theorem Extends.answered (h : r.Extends r') {s : Search} (ha : r.Answered s) : r'.Answered s := by
  intro a hs
  obtain ⟨call, slot, hp, hw, hr⟩ := ha a hs
  obtain ⟨slot', hw', -, hg⟩ := h.workers _ slot hw
  exact ⟨call, slot', hp, hw', hg.subset hr⟩

/-- Where leases, workers and finished registrations stay what they are. -/
theorem Extends.of_eq (hl : r'.leases = r.leases) (hw : r'.workers = r.workers)
    (ht : r'.tasks = r.tasks) : r.Extends r' where
  leases := fun l lease h => ⟨lease, by rw [hl]; exact h, rfl⟩
  workers := fun w slot h => ⟨slot, by rw [hw]; exact h, rfl, Grows.refl _⟩
  registered := fun e h => by
    unfold Registered
    rw [ht]
    exact h

/-! ## §3 — the small steps. -/

/-- A sound later state. -/
def Advance (host : Host) (r r' : Registry) : Prop := Sound host r' ∧ r.Extends r'

theorem Advance.trans (h : Advance host r r') (h' : Sound host r' → Advance host r' r'') :
    Advance host r r'' :=
  ⟨(h' h.1).1, h.2.trans (h' h.1).2⟩

theorem Sound.stay (h : Sound host r) : Advance host r r := ⟨h, Extends.refl r⟩

/-- A step that touches tasks, entries and searches only as far as they stay sound. -/
theorem Sound.extend (h : Sound host r) (hext : r.Extends r')
    (hworkers : ∀ w slot, r'.workers[w]? = some slot → ∃ lease,
      r'.leases[slot.lease]? = some lease ∧
        ∃ events, slot.machine = Machine.after (host.runtime w) (some lease.identity) events)
    (htasks : ∀ task ∈ r'.tasks, task ∈ r.tasks ∨ r'.Owned task.phase)
    (hentries : ∀ p ∈ r'.entries, p ∈ r.entries ∨ r'.Registered p.2)
    (hsearches : ∀ s ∈ r'.searches, s ∈ r.searches ∨ (r'.Registered s.entry ∧ r'.Answered s)) :
    Advance host r r' := by
  refine ⟨?_, hext⟩
  exact {
    workers := hworkers
    tasks := fun task hm => (htasks task hm).elim (fun hr => hext.owned (h.tasks task hr)) id
    entries := fun p hm => (hentries p hm).elim (fun hr => hext.registered _ (h.entries p hr)) id
    searches := fun s hm => (hsearches s hm).elim
      (fun hr => ⟨hext.registered _ (h.searches s hr).1, hext.answered (h.searches s hr).2⟩) id }

/-- Leases, workers and tasks stay what they are. -/
theorem Sound.frame (h : Sound host r) (hl : r'.leases = r.leases) (hw : r'.workers = r.workers)
    (ht : r'.tasks = r.tasks)
    (hentries : ∀ p ∈ r'.entries, p ∈ r.entries ∨ r'.Registered p.2)
    (hsearches : ∀ s ∈ r'.searches, s ∈ r.searches ∨ (r'.Registered s.entry ∧ r'.Answered s)) :
    Advance host r r' := by
  refine h.extend (Extends.of_eq hl hw ht) ?_ ?_ hentries hsearches
  · rw [hl, hw]
    exact h.workers
  · rw [ht]
    exact fun task hm => .inl hm

theorem getElem?_drive (w : WorkerId) (e : Client.Event) (v : WorkerId) :
    (r.drive host w e).workers[v]? = (r.workers[v]?).map fun slot =>
      if w = v then { slot with machine := slot.machine.step (host.runtime w) e } else slot := by
  rw [Registry.drive, List.getElem?_modify]
  split <;> rename_i hv <;> cases r.workers[v]? <;> simp

theorem getElem?_release (l v : LeaseId) :
    (r.release l).leases[v]? = (r.leases[v]?).map fun lease =>
      if l = v then { lease with released := true } else lease := by
  rw [Registry.release, List.getElem?_modify]
  split <;> rename_i hv <;> cases r.leases[v]? <;> simp

theorem getElem?_setPhase (t : Nat) (phase : Phase) (v : Nat) :
    (r.setPhase t phase).tasks[v]? = (r.tasks[v]?).map fun task =>
      if t = v then { task with phase := phase } else task := by
  rw [Registry.setPhase, List.getElem?_modify]
  split <;> rename_i hv <;> cases r.tasks[v]? <;> simp

/-- An entry into a worker is the next event of the worker's own run. -/
theorem Sound.drive (h : Sound host r) (w : WorkerId) (e : Client.Event) :
    Advance host r (r.drive host w e) := by
  have hget := @getElem?_drive host r w e
  refine h.extend ⟨?_, ?_, ?_⟩ ?_ (fun _ => .inl) (fun _ => .inl) (fun _ => .inl)
  · exact fun l lease hl => ⟨lease, hl, rfl⟩
  · intro v slot hv
    rw [hget, hv]
    refine ⟨_, rfl, ?_⟩
    split
    · exact ⟨rfl, Grows.step _ _ _⟩
    · exact ⟨rfl, Grows.refl _⟩
  · exact fun e he => he
  · intro v slot hv
    rw [hget, Option.map_eq_some_iff] at hv
    obtain ⟨slot, hslot, rfl⟩ := hv
    obtain ⟨lease, hl, events, hm⟩ := h.workers v slot hslot
    by_cases hwv : w = v
    · subst hwv
      rw [if_pos rfl]
      refine ⟨lease, hl, events ++ [e], ?_⟩
      show slot.machine.step (host.runtime w) e = _
      rw [hm, Machine.after, Machine.after, run_append]
      rfl
    · rw [if_neg hwv]
      exact ⟨lease, hl, events, hm⟩

/-- Releasing a lease leaves its identity. -/
theorem Sound.release (h : Sound host r) (l : LeaseId) : Advance host r (r.release l) := by
  have hget := @getElem?_release r l
  have hkeep : ∀ (v : LeaseId) (lease : Lease), r.leases[v]? = some lease →
      ∃ lease' : Lease, (r.release l).leases[v]? = some lease' ∧ lease'.identity = lease.identity := by
    intro v lease hv
    rw [hget, hv]
    refine ⟨_, rfl, ?_⟩
    split <;> rfl
  refine h.extend ⟨hkeep, ?_, ?_⟩ ?_ (fun _ => .inl) (fun _ => .inl) (fun _ => .inl)
  · exact fun w slot hw => ⟨slot, hw, rfl, Grows.refl _⟩
  · exact fun e he => he
  · intro w slot hw
    obtain ⟨lease, hl, events, hm⟩ := h.workers w slot hw
    obtain ⟨lease', hl', hid⟩ := hkeep _ lease hl
    exact ⟨lease', hl', events, by rw [hid]; exact hm⟩

/-- The task at `t` is still running. -/
def Running (r : Registry) (t : Nat) : Prop :=
  ∀ task, r.tasks[t]? = some task → ∀ e, task.phase ≠ .published e

/-- A running task moves on. -/
theorem Sound.setPhase (h : Sound host r) {t : Nat} {phase : Phase} (hrun : r.Running t)
    (ho : r.Owned phase) : Advance host r (r.setPhase t phase) := by
  have hget := @getElem?_setPhase r t phase
  have hext : r.Extends (r.setPhase t phase) := by
    refine ⟨fun l lease hl => ⟨lease, hl, rfl⟩,
      fun w slot hw => ⟨slot, hw, rfl, Grows.refl _⟩, ?_⟩
    intro e he
    obtain ⟨task, hm, hp⟩ := he
    obtain ⟨v, hv⟩ := List.getElem?_of_mem hm
    refine ⟨task, List.mem_of_getElem? (i := v) ?_, hp⟩
    rw [hget, hv, Option.map_some]
    by_cases htv : t = v
    · subst htv
      exact absurd hp (hrun task hv e)
    · rw [if_neg htv]
  refine h.extend hext h.workers ?_ (fun _ => .inl) (fun _ => .inl)
  intro task hm
  obtain ⟨v, hv⟩ := List.getElem?_of_mem hm
  rw [hget, Option.map_eq_some_iff] at hv
  obtain ⟨old, hold, rfl⟩ := hv
  split
  · exact .inr (hext.owned ho)
  · exact .inl (List.mem_of_getElem? hold)

/-- The entries into a registry that leave a running task alone. -/
theorem Running.of_eq {t : Nat} (h : r.Running t) (ht : r'.tasks = r.tasks) : r'.Running t := by
  unfold Running
  rw [ht]
  exact h

theorem Running.of_phase {t : Nat} {phase : Phase} (h : (r.tasks[t]?).map Task.phase = some phase)
    (hp : ∀ e, phase ≠ .published e) : r.Running t := by
  intro task ht
  rw [ht] at h
  obtain rfl : task.phase = phase := Option.some.inj h
  exact hp

theorem Running.of_task {t : Nat} {task : Task} {phase : Phase} (ht : r.tasks[t]? = some task)
    (hphase : task.phase = phase) (hp : ∀ e, phase ≠ .published e) : r.Running t := by
  apply Running.of_phase _ hp
  rw [ht, Option.map_some, hphase]

/-! ## §4 — `register`. -/

theorem Sound.closeWorker (h : Sound host r) (worker : Option WorkerId) :
    Advance host r (r.closeWorker host worker) := by
  cases worker with
  | none => exact h.stay
  | some w => exact h.drive w .close

theorem Sound.closeLease (h : Sound host r) (lease : Option LeaseId) :
    Advance host r (r.closeLease lease) := by
  cases lease with
  | none => exact h.stay
  | some l => exact h.release l

theorem Sound.abandon (h : Sound host r) {t : Nat} {lease : Option LeaseId}
    {worker : Option WorkerId} {code : WorkspaceErrorCode} (hrun : r.Running t) :
    Advance host r (r.abandon host t lease worker code) := by
  have htasks : ((r.closeWorker host worker).closeLease lease).tasks = r.tasks := by
    cases worker <;> cases lease <;> rfl
  unfold Registry.abandon
  refine (h.closeWorker worker).trans fun h₁ => ?_
  refine (h₁.closeLease lease).trans fun h₂ => ?_
  exact h₂.setPhase (hrun.of_eq htasks) trivial

theorem Sound.register (h : Sound host r) (absoluteRoot : Json) (policyInput : Option Json) :
    Advance host r (r.register absoluteRoot policyInput).2 := by
  unfold Registry.register
  split
  · exact h.stay
  · split
    · exact h.stay
    · split
      · exact h.stay
      · split
        · exact h.stay
        · refine h.extend ⟨fun l lease hl => ⟨lease, hl, rfl⟩,
            fun w slot hw => ⟨slot, hw, rfl, Grows.refl _⟩, ?_⟩ h.workers ?_ (fun _ => .inl)
            (fun _ => .inl)
          · exact fun e he => he.imp fun task ht => ⟨List.mem_append_left _ ht.1, ht.2⟩
          · intro task hm
            rcases List.mem_append.mp hm with hm | hm
            · exact .inl hm
            · obtain rfl := List.mem_singleton.mp hm
              exact .inr trivial

theorem Sound.onRealpath (h : Sound host r) (t : Nat) (canonical : Option JsString) :
    Advance host r (r.onRealpath host t canonical) := by
  unfold Registry.onRealpath
  split
  · rename_i hp
    exact h.setPhase (Running.of_phase hp nofun) trivial
  · rename_i hp
    exact h.abandon (Running.of_phase hp nofun)
  · exact h.stay

theorem Sound.onOpen (h : Sound host r) (t : Nat) (lease : Option Lease) :
    Advance host r (r.onOpen host t lease) := by
  unfold Registry.onOpen
  split
  · rename_i canonical lease hp
    have hrun : r.Running t := Running.of_phase hp nofun
    dsimp only
    have hold : ∀ l old, r.leases[l]? = some old →
        (r.leases ++ [{ lease with released := false }])[l]? = some old := fun l old hl =>
      (List.getElem?_append_left (List.getElem?_eq_some_iff.mp hl).1).trans hl
    have hlease : Advance host r
        { r with leases := r.leases ++ [{ lease with released := false }] } := by
      refine h.extend ⟨fun l old hl => ⟨old, hold l old hl, rfl⟩,
        fun w slot hw => ⟨slot, hw, rfl, Grows.refl _⟩, fun e he => he⟩ ?_ (fun _ => .inl)
        (fun _ => .inl) (fun _ => .inl)
      intro w slot hw
      obtain ⟨old, hl, events, hm⟩ := h.workers w slot hw
      exact ⟨old, hold _ old hl, events, hm⟩
    refine hlease.trans fun h₁ => ?_
    exact h₁.setPhase (hrun.of_eq rfl) trivial
  · rename_i hp
    exact h.abandon (Running.of_phase hp nofun)
  · exact h.stay

/-- The new worker starts with the identity on its lease. -/
theorem Sound.onStat (h : Sound host r) (t : Nat) (ok : Bool) :
    Advance host r (r.onStat host t ok) := by
  unfold Registry.onStat
  split
  · rename_i canonical l hp
    have hrun : r.Running t := Running.of_phase hp nofun
    split
    · exact h.stay
    · rename_i lease hl
      split
      · exact h.abandon hrun
      · split
        · exact h.abandon hrun
        · split
          · exact h.abandon hrun
          · dsimp only
            set slot : RootWorker :=
              { root := canonical, lease := l, machine := Machine.create (some lease.identity) }
              with hslot
            have hold : ∀ w old, r.workers[w]? = some old →
                (r.workers ++ [slot])[w]? = some old := fun w old hw =>
              (List.getElem?_append_left (List.getElem?_eq_some_iff.mp hw).1).trans hw
            have hworker : Advance host r { r with workers := r.workers ++ [slot] } := by
              refine h.extend ⟨fun l old hl => ⟨old, hl, rfl⟩,
                fun w old hw => ⟨old, hold w old hw, rfl, Grows.refl _⟩, fun e he => he⟩ ?_
                (fun _ => .inl) (fun _ => .inl) (fun _ => .inl)
              intro w s hw
              rcases Nat.lt_or_ge w r.workers.length with hlt | hge
              · rw [List.getElem?_append_left hlt] at hw
                exact h.workers w s hw
              · rw [List.getElem?_append_right hge] at hw
                obtain rfl : slot = s := by
                  have hm := List.mem_of_getElem? hw
                  exact (List.mem_singleton.mp hm).symm
                exact ⟨lease, hl, [], rfl⟩
            refine hworker.trans fun h₁ => ?_
            refine (h₁.drive r.workers.length .openRoot).trans fun h₂ => ?_
            refine h₂.setPhase (hrun.of_eq rfl) ?_
            have hnew : Owns { r with workers := r.workers ++ [slot] } r.workers.length l :=
              ⟨slot, by simp, rfl⟩
            exact (h₁.drive r.workers.length .openRoot).2.owns hnew
  · exact h.stay

theorem Sound.searchWorker (h : Sound host r) (w : WorkerId) (input : List (List UInt16 × Json))
    (signal : Option SignalId) : Advance host r (r.searchWorker host w input signal).2 := by
  unfold Registry.searchWorker
  split
  · exact h.stay
  · exact h.drive w (.search input signal)

theorem searchWorker_tasks (w : WorkerId) (input : List (List UInt16 × Json))
    (signal : Option SignalId) : (r.searchWorker host w input signal).2.tasks = r.tasks := by
  unfold Registry.searchWorker
  split <;> rfl

/-- An entry in the map is a registered one, whether it is new or takes a key over. -/
theorem Sound.publish (h : Sound host r) {t : Nat} {task : Task} {l : LeaseId} {w : WorkerId}
    (ht : r.tasks[t]? = some task) (hrun : r.Running t) (ho : r.Owns w l) :
    Advance host r (r.publish host t task.policy l w) := by
  unfold Registry.publish
  dsimp only
  set entry : Entry := {
    registration := {
      workspaceId := host.uuid r.uuids, scopePolicyId := host.uuid (r.uuids + 1)
      policyHash := policyHash host.sha256 task.policy, policy := task.policy }
    worker := w, rootLease := l } with hentry
  set counted : Registry := { r with uuids := r.uuids + 2, registering := r.registering - 1 }
  -- the phase first: the entry of the map is then a registered one
  have hphase : Advance host r (r.setPhase t (.published entry)) := h.setPhase hrun ho
  have hreg : (r.setPhase t (.published entry)).Registered entry := by
    refine ⟨{ task with phase := .published entry }, List.mem_of_getElem? (i := t) ?_, rfl⟩
    rw [Registry.setPhase, List.getElem?_modify_eq, ht]
    rfl
  refine hphase.trans fun h₁ => ?_
  refine h₁.frame rfl rfl rfl ?_ (fun _ => .inl)
  intro p hm
  have hset : p ∈ (counted.set (host.uuid r.uuids) entry).entries := hm
  rw [Registry.set] at hset
  dsimp only at hset
  split at hset
  · obtain ⟨q, hq, rfl⟩ := List.mem_map.mp hset
    split
    · exact .inr hreg
    · exact .inl hq
  · rcases List.mem_append.mp hset with hq | hq
    · exact .inl hq
    · obtain rfl := List.mem_singleton.mp hq
      exact .inr hreg

theorem Sound.resume (h : Sound host r) (t : Nat) : Advance host r (r.resume host t) := by
  unfold Registry.resume
  split
  · exact h.stay
  · rename_i task ht
    have hmem : task ∈ r.tasks := List.mem_of_getElem? ht
    split
    · rename_i l w promise hp
      have hrun : r.Running t := Running.of_task ht hp nofun
      have ho : r.Owned (.opening l w promise) := hp ▸ h.tasks task hmem
      split
      · exact h.stay
      · dsimp only
        have hs := h.searchWorker w (validationInput task.policy) none
        refine hs.trans fun h₁ => ?_
        refine h₁.setPhase (hrun.of_eq (searchWorker_tasks _ _ _)) ?_
        exact hs.2.owns ho
      · exact h.abandon hrun
    · rename_i l w promise hp
      have hrun : r.Running t := Running.of_task ht hp nofun
      have ho : r.Owned (.validating l w promise) := hp ▸ h.tasks task hmem
      split
      · exact h.stay
      · split
        · exact h.abandon hrun
        · exact h.publish ht hrun ho
      · exact h.abandon hrun
      · exact h.abandon hrun
    · exact h.stay

theorem Sound.onLeaseClosed (h : Sound host r) (t : Nat) (ok : Bool) :
    Advance host r (r.onLeaseClosed t ok) := by
  unfold Registry.onLeaseClosed
  split
  · rename_i lease code hp
    have hrun : r.Running t := Running.of_phase hp nofun
    have hcount : Advance host r { r with registering := r.registering - 1 } :=
      h.frame rfl rfl rfl (fun _ => .inl) (fun _ => .inl)
    refine hcount.trans fun h₁ => ?_
    exact h₁.setPhase (hrun.of_eq rfl) trivial
  · exact h.stay

/-! ## §5 — `search`, `unregister`, `close`. -/

theorem get_mem {workspaceId : JsString} {e : Entry} (h : r.get workspaceId = some e) :
    ∃ p ∈ r.entries, p.2 = e := by
  unfold Registry.get at h
  rw [Option.map_eq_some_iff] at h
  obtain ⟨p, hp, rfl⟩ := h
  exact ⟨p, List.mem_of_find?_eq_some hp, rfl⟩

theorem Sound.search (h : Sound host r) (input : Json) (signal : Option SignalId) :
    Advance host r (r.search host input signal).2 := by
  unfold Registry.search
  split
  · exact h.stay
  · split
    · exact h.stay
    · rename_i request _
      split
      · exact h.stay
      · rename_i entry hget
        obtain ⟨p, hp, rfl⟩ := get_mem (Option.filter_eq_some_iff.mp hget).1
        dsimp only
        have hs := h.searchWorker p.2.worker (searchInput p.2.registration.policy request) signal
        refine hs.trans fun h₁ => ?_
        refine h₁.frame rfl rfl rfl (fun _ => .inl) ?_
        intro s hm
        rcases List.mem_append.mp hm with hm | hm
        · exact .inl hm
        · obtain rfl := List.mem_singleton.mp hm
          exact .inr ⟨hs.2.registered _ (h.entries p hp), nofun⟩

/-- A promise that resolves a search resolved it in the worker's trace. -/
theorem settlement_resolved {m : Machine} {promise : Promised} {response : WorkerResponse}
    (h : settlement m promise = some (.resolved response)) :
    ∃ call, promise = .later call ∧ Client.Entry.resolved call response ∈ m.trace := by
  cases promise with
  | rejected code => cases Option.some.inj h
  | resolved => cases Option.some.inj h
  | later call =>
      obtain ⟨e, he, hs⟩ := List.exists_of_findSome?_eq_some h
      refine ⟨call, rfl, ?_⟩
      cases e with
      | resolved k q =>
          rw [settlementOf] at hs
          split at hs
          · rename_i hk
            subst hk
            obtain rfl := Settlement.resolved.inj (Option.some.inj hs)
            exact he
          · cases hs
      | opened k | rejected k _ =>
          rw [settlementOf] at hs
          split at hs <;> cases hs
      | _ => cases hs

theorem Sound.onSearched (h : Sound host r) (n : Nat) : Advance host r (r.onSearched host n) := by
  unfold Registry.onSearched
  split
  · exact h.stay
  · rename_i s hs
    have hmem : s ∈ r.searches := List.mem_of_getElem? hs
    split
    · exact h.stay
    · split
      · rename_i response hset
        refine h.frame rfl rfl rfl (fun _ => .inl) ?_
        intro s' hm
        rcases List.mem_or_eq_of_mem_set hm with hm | rfl
        · exact .inl hm
        · refine .inr ⟨(h.searches s hmem).1, ?_⟩
          intro a ha
          obtain rfl : answerOf host s response = a := Except.ok.inj (Option.some.inj ha)
          rw [Registry.settled, Option.bind_eq_some_iff] at hset
          obtain ⟨slot, hw, hset⟩ := hset
          obtain ⟨call, hcall, hin⟩ := settlement_resolved hset
          exact ⟨call, slot, hcall, hw, hin⟩
      · refine h.frame rfl rfl rfl (fun _ => .inl) ?_
        intro s' hm
        rcases List.mem_or_eq_of_mem_set hm with hm | rfl
        · exact .inl hm
        · exact .inr ⟨(h.searches s hmem).1, nofun⟩
      · exact h.stay

theorem Sound.shut (h : Sound host r) (e : Entry) : Advance host r (r.shut host e) :=
  (h.drive e.worker .close).trans fun h₁ => h₁.release e.rootLease

theorem Sound.unregister (h : Sound host r) (workspaceId : JsString) :
    Advance host r (r.unregister host workspaceId).2 := by
  unfold Registry.unregister
  split
  · exact h.stay
  · rename_i e _
    refine (h.shut e).trans fun h₁ => ?_
    exact h₁.frame rfl rfl rfl (fun p hm => .inl (List.mem_filter.mp hm).1) (fun _ => .inl)

theorem Sound.close (h : Sound host r) : Advance host r (r.close host) := by
  have hall : ∀ entries : List (JsString × Entry), ∀ r : Registry, Sound host r →
      Advance host r (entries.foldl (fun r p => r.shut host p.2) r) := by
    intro entries
    induction entries with
    | nil => exact fun r h => h.stay
    | cons p ps ih => exact fun r h => (h.shut p.2).trans (ih _)
  have hclosed : Advance host r { r with closed := true } :=
    h.frame rfl rfl rfl (fun _ => .inl) (fun _ => .inl)
  unfold Registry.close
  refine (hclosed.trans (hall r.entries _)).trans fun h₁ => ?_
  exact h₁.frame rfl rfl rfl nofun (fun _ => .inl)

/-! ## §6 — runs. -/

/-- **The step lemma.** Every entry into the registry leads to a sound later state. -/
theorem Sound.step (h : Sound host r) (e : Event) : Advance host r (r.step host e) := by
  cases e with
  | register absoluteRoot policyInput => exact h.register absoluteRoot policyInput
  | realpath t canonical => exact h.onRealpath t canonical
  | opened t lease => exact h.onOpen t lease
  | stat t ok => exact h.onStat t ok
  | resume t => exact h.resume t
  | leaseClosed t ok => exact h.onLeaseClosed t ok
  | worker w e =>
      show Advance host r (if isCall e then r else r.drive host w e)
      split
      · exact h.stay
      · exact h.drive w e
  | search input signal => exact h.search input signal
  | searched n => exact h.onSearched n
  | unregister workspaceId => exact h.unregister workspaceId
  | close => exact h.close

theorem sound_after (host : Host) (events : List Event) : Sound host (Registry.after host events) := by
  refine run_invariant ?_ (fun e r h => (h.step e).1) events
  exact {
    workers := fun w slot hw => by cases hw
    tasks := fun task hm => by cases hm
    entries := fun p hm => by cases hm
    searches := fun s hm => by cases hm }

theorem extends_after (host : Host) (events more : List Event) :
    (Registry.after host events).Extends (Registry.after host (events ++ more)) := by
  have h := sound_after host events
  unfold Registry.after at h ⊢
  rw [run_append]
  generalize run (Registry.step host) {} events = r at h
  refine @run_stable _ _ _ _ (Sound host) (fun r' => r.Extends r') (fun e r h => (h.step e).1)
    (fun e r' h hext => hext.trans (h.step e).2) h (Extends.refl r) more

/-- The root of an entry is pinned to `identity`. -/
structure PinnedTo (r : Registry) (e : Entry) (identity : JsString) : Prop where
  /-- It is the identity on the registration's own root lease, and the one the worker holds. -/
  lease : ∃ lease, r.leases[e.rootLease]? = some lease ∧ lease.identity = identity
  worker : ∃ slot, r.workers[e.worker]? = some slot ∧
    slot.machine.worker.rootIdentity = some identity
  /-- A frame goes to a child whose hello reported it. -/
  frames : ∀ slot, r.workers[e.worker]? = some slot → ∀ later earlier c call frame,
    slot.machine.trace = later ++ .wrote c call frame :: earlier →
      Client.Entry.greeted c identity ∈ earlier
  /-- A child whose hello reported another identity no longer runs and never got a frame. -/
  foreign : ∀ slot, r.workers[e.worker]? = some slot → ∀ c other,
    Client.Entry.greeted c other ∈ slot.machine.trace → other ≠ identity →
      Gone slot.machine.trace c ∧ ∀ call frame, Client.Entry.wrote c call frame ∉ slot.machine.trace
  /-- What `search` returned for the entry was delivered by a child whose hello reported it. -/
  answers : ∀ s ∈ r.searches, s.entry = e → ∀ a, s.answer = some (.ok a) →
    ∃ slot call later c message size before, s.promise = .later call ∧
      r.workers[e.worker]? = some slot ∧ slot.machine.trace
        = later ++ .resolved call a.result :: .delivered c message size :: before ∧
      Client.Entry.greeted c identity ∈ before

/-- What a registry's run does with the roots of its registrations. -/
structure RootsPinned (host : Host) (events : List Event) : Prop where
  /-- Searches reach registered entries only. -/
  registered : (∀ p ∈ (after host events).entries, (after host events).Registered p.2) ∧
    ∀ s ∈ (after host events).searches, (after host events).Registered s.entry
  /-- A registered entry is pinned to one identity, now and behind everything that follows. -/
  pinned : ∀ e, (after host events).Registered e →
    ∃ identity, ∀ more, (after host (events ++ more)).PinnedTo e identity

/-- A sound registry pins a registered entry to the identity on its lease. -/
theorem Sound.pinnedTo (h : Sound host r) {e : Entry} (he : r.Registered e) {lease : Lease}
    (hl : r.leases[e.rootLease]? = some lease) : r.PinnedTo e lease.identity := by
  obtain ⟨task, hm, hp⟩ := he
  have hown : r.Owned (.published e) := hp ▸ h.tasks task hm
  obtain ⟨slot, hw, hs⟩ := hown
  obtain ⟨lease', hl', events, hm⟩ := h.workers _ slot hw
  rw [hs, hl] at hl'
  obtain rfl : lease = lease' := Option.some.inj hl'
  have hinv : Client.Inv slot.machine := by
    rw [hm]
    exact Client.inv_after _ _ _
  have hpin : Pinned lease.identity slot.machine := by
    rw [hm]
    exact Client.pinned_after _ _ _
  exact {
    lease := ⟨lease, hl, rfl⟩
    worker := ⟨slot, hw, hpin.root⟩
    frames := fun slot' hw' later earlier c call frame ht => by
      obtain rfl : slot = slot' := Option.some.inj (hw.symm.trans hw')
      exact hpin.wrote_behind hinv ht
    foreign := fun slot' hw' c other hg hne => by
      obtain rfl : slot = slot' := Option.some.inj (hw.symm.trans hw')
      exact ⟨hpin.foreign c other hg hne, hpin.foreign_unwritten hg hne⟩
    answers := fun s hs he a ha => by
      obtain ⟨call, slot', hcall, hw', hr⟩ := (h.searches s hs).2 a ha
      rw [he, hw] at hw'
      obtain rfl : slot = slot' := Option.some.inj hw'
      obtain ⟨later, earlier, ht⟩ := List.append_of_mem hr
      have hj := hinv.justified
      rw [ht] at hj
      obtain ⟨-, c, request, message, size, frame, before, rfl, hwrote, -, -, -⟩ := hj.entry
      obtain ⟨between, greeting, rfl⟩ := List.append_of_mem hwrote
      refine ⟨slot, call, later, c, message, size, _, hcall, hw, ht, ?_⟩
      refine List.mem_append_right _ (List.mem_cons_of_mem _ ?_)
      have hsplit : slot.machine.trace = (later ++ .resolved call a.result ::
          .delivered c message size :: between) ++ .wrote c call frame :: greeting := by
        rw [ht]
        simp
      exact hpin.wrote_behind hinv hsplit }

/-- **The root of a registration is pinned for its lifetime**, whatever its workers, its callers and the
file system do. -/
theorem rootsPinned_after (host : Host) (events : List Event) : RootsPinned host events := by
  have h := sound_after host events
  refine ⟨⟨h.entries, fun s hs => (h.searches s hs).1⟩, ?_⟩
  intro e he
  obtain ⟨task, hm, hp⟩ := he
  have hown : (after host events).Owned (.published e) := hp ▸ h.tasks task hm
  obtain ⟨slot, hw, hs⟩ := hown
  obtain ⟨lease, hl, -⟩ := h.workers _ slot hw
  refine ⟨lease.identity, fun more => ?_⟩
  have hext := extends_after host events more
  rw [hs] at hl
  obtain ⟨lease', hl', hid⟩ := hext.leases _ lease hl
  rw [← hid]
  exact (sound_after host (events ++ more)).pinnedTo (hext.registered e ⟨task, hm, hp⟩) hl'

end Registry

end JevGrep.Workspace
