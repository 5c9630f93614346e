/-
# `JevGrep.Client.CallSafety` — calls of the worker client never mix.

Every entry of a trace is allowed by the entries before it (`allowed`): a promise is settled once, a
frame is written once and only to a child that has greeted, a response resolves a call only when it is
the frame just delivered by the child the call's request went to, and no child is started behind a
`close()` or before every killed child has closed. `Inv` ties the object's fields to the trace; each
handler keeps it, so it holds behind every run.
-/
import JevGrep.Client.NativeWorker

namespace JevGrep.Client

open JevGrep.Lib JevGrep.Lib.Schema JevGrep.Lib.Transition
open JevGrep.Contracts (JsString)
open JevGrep.Worker (Bytes FRAME_CAP)

/-! ## §1 — what a trace may contain. -/

/-- The call an entry is about. -/
def Entry.call? : Entry → Option CallId
  | .accepted call _ | .opening call | .wrote _ call _ | .opened call | .resolved call _
  | .rejected call _ => some call
  | .spawned _ | .delivered .. | .greeted .. | .killed _ | .exited _ | .closed _ | .disposed => none

/-- The child an entry is about. -/
def Entry.child? : Entry → Option ChildId
  | .spawned c | .delivered c .. | .greeted c _ | .wrote c .. | .killed c | .exited c | .closed c =>
      some c
  | .accepted .. | .opening _ | .opened _ | .resolved .. | .rejected .. | .disposed => none

/-- Whether an entry settles a call, and whether it writes its frame. -/
def Entry.settles (call : CallId) : Entry → Bool
  | .opened k | .resolved k _ | .rejected k _ => k == call
  | _ => false

def Entry.writes (call : CallId) : Entry → Bool
  | .wrote _ k _ => k == call
  | _ => false

/-- No entry settles the call. -/
def Unsettled (call : CallId) (trace : List Entry) : Prop := ∀ e ∈ trace, e.settles call = false

/-- No entry is a frame of the call. -/
def Unwritten (call : CallId) (trace : List Entry) : Prop := ∀ e ∈ trace, e.writes call = false

/-- What must stand before an entry. -/
def allowed (earlier : List Entry) : Entry → Prop
  | .accepted call r =>
      (∀ e ∈ earlier, e.call? ≠ some call) ∧
        ∀ k q, Entry.accepted k q ∈ earlier → q.id ≠ r.id
  | .opening call => ∀ e ∈ earlier, e.call? ≠ some call
  | .spawned c =>
      (∀ e ∈ earlier, e.child? ≠ some c) ∧ Entry.disposed ∉ earlier ∧
        ∀ d, Entry.killed d ∈ earlier → Entry.closed d ∈ earlier
  | .wrote c call frame =>
      Unwritten call earlier ∧ Unsettled call earlier ∧ (∃ i, Entry.greeted c i ∈ earlier) ∧
        Entry.killed c ∉ earlier ∧
        ∃ r n, Entry.accepted call r ∈ earlier ∧ frame = requestFrame r n
  | .opened call => Unsettled call earlier ∧ Entry.opening call ∈ earlier
  | .rejected call _ =>
      Unsettled call earlier ∧
        (Entry.opening call ∈ earlier ∨ ∃ r, Entry.accepted call r ∈ earlier)
  | .resolved call response =>
      Unsettled call earlier ∧ ∃ c r message size frame before,
        earlier = .delivered c message size :: before ∧ Entry.wrote c call frame ∈ before ∧
          Entry.accepted call r ∈ before ∧ Entry.killed c ∉ before ∧
          validateWorkerResponse message r size = some response
  | .delivered .. | .greeted .. | .killed _ | .exited _ | .closed _ | .disposed => True

/-! ## §2 — the invariant. -/

/-- What holds in the middle of a handler as well. -/
structure Core (m : Machine) : Prop where
  justified : Justified allowed m.trace
  exclusive : m.worker.pending = none ∨ m.worker.opening = none
  pending : ∀ p, m.worker.pending = some p →
    Entry.accepted p.call p.request ∈ m.trace ∧ Unsettled p.call m.trace
  opening : ∀ k, m.worker.opening = some k → Entry.opening k ∈ m.trace ∧ Unsettled k m.trace
  timers : ∀ k ∈ m.timers,
    m.worker.opening = some k ∨ ∃ p, m.worker.pending = some p ∧ p.call = k
  listeners : ∀ l ∈ m.listeners, ∃ p, m.worker.pending = some p ∧ p.call = l.1
  calls : ∀ e ∈ m.trace, ∀ k, e.call? = some k → k < m.calls
  children : ∀ e ∈ m.trace, ∀ c, e.child? = some c → c < m.children
  ids : ∀ k r, Entry.accepted k r ∈ m.trace → ∃ n ≤ m.worker.sequence, r.id = requestId n
  current : ∀ c, m.worker.child = some c →
    c < m.children ∧ Entry.killed c ∉ m.trace ∧ m.worker.retiring = false
  disposed : Entry.disposed ∈ m.trace → m.worker.disposed = true
  killed : ∀ c, Entry.killed c ∈ m.trace →
    Entry.closed c ∈ m.trace ∨ (m.worker.retiring = true ∧ c ∈ m.reapers)
  reapers : m.reapers.length ≤ 1 ∧ (m.worker.retiring = false → m.reapers = [])
  ready : m.worker.ready = true →
    ∃ c i, m.worker.child = some c ∧ Entry.greeted c i ∈ m.trace

/-- What holds between handlers. -/
structure Inv (m : Machine) : Prop extends Core m where
  served : m.worker.pending ≠ none ∨ m.worker.opening ≠ none → m.worker.child ≠ none
  alive : m.worker.child ≠ none → m.worker.disposed = false
  opened : m.worker.ready = true → m.worker.opening = none
  unwritten : ∀ p, m.worker.pending = some p → m.worker.ready = false → Unwritten p.call m.trace
  written : ∀ p c, m.worker.pending = some p → m.worker.ready = true → m.worker.child = some c →
    ∃ frame, Entry.wrote c p.call frame ∈ m.trace

theorem Machine.hasExited_iff {m : Machine} {c : ChildId} :
    m.hasExited c = true ↔ Entry.exited c ∈ m.trace := by
  rw [hasExited, List.any_eq_true]
  constructor
  · rintro ⟨e, he, h⟩
    cases e with
    | exited d =>
        obtain rfl : d = c := beq_iff_eq.mp h
        exact he
    | _ => cases h
  · exact fun h => ⟨_, h, beq_self_eq_true c⟩

theorem core_create (identity : Option JsString) : Core (Machine.create identity) := by
  constructor <;> simp [Machine.create, Justified]

theorem inv_create (identity : Option JsString) : Inv (Machine.create identity) :=
  { core_create identity with
    served := by simp [Machine.create]
    alive := by simp [Machine.create]
    opened := by simp [Machine.create]
    unwritten := by simp [Machine.create]
    written := by simp [Machine.create] }

/-! ## §3 — `fail`. -/

section Unsettled

variable {call k : CallId} {e : Entry} {trace : List Entry}

theorem unsettled_cons : Unsettled call (e :: trace) ↔ e.settles call = false ∧ Unsettled call trace :=
  List.forall_mem_cons

theorem unwritten_cons : Unwritten call (e :: trace) ↔ e.writes call = false ∧ Unwritten call trace :=
  List.forall_mem_cons

theorem settles_call? (h : e.settles call = true) : e.call? = some call := by
  cases e with
  | opened k | resolved k r | rejected k r => exact congrArg some (beq_iff_eq.mp h)
  | _ => cases h

theorem writes_call? (h : e.writes call = true) : e.call? = some call := by
  cases e with
  | wrote c k f => exact congrArg some (beq_iff_eq.mp h)
  | _ => cases h

end Unsettled

namespace Core

/-- Recording an entry that settles no call in flight and kills nobody. -/
theorem record {m : Machine} {e : Entry} (h : Core m) (hallowed : allowed m.trace e)
    (hcall : ∀ k, e.call? = some k → k < m.calls) (hchild : ∀ c, e.child? = some c → c < m.children)
    (hpending : ∀ p, m.worker.pending = some p → e.settles p.call = false)
    (hopening : ∀ k, m.worker.opening = some k → e.settles k = false)
    (haccepted : ∀ k r, e ≠ .accepted k r) (hkilled : ∀ c, e ≠ .killed c)
    (hdisposed : e = .disposed → m.worker.disposed = true) : Core (m.record e) where
  justified := ⟨hallowed, h.justified⟩
  exclusive := h.exclusive
  pending p hp :=
    ⟨List.mem_cons_of_mem _ (h.pending p hp).1,
      unsettled_cons.mpr ⟨hpending p hp, (h.pending p hp).2⟩⟩
  opening k hk :=
    ⟨List.mem_cons_of_mem _ (h.opening k hk).1,
      unsettled_cons.mpr ⟨hopening k hk, (h.opening k hk).2⟩⟩
  timers := h.timers
  listeners := h.listeners
  calls := List.forall_mem_cons.mpr ⟨hcall, h.calls⟩
  children := List.forall_mem_cons.mpr ⟨hchild, h.children⟩
  ids k r ha := by
    rcases List.mem_cons.mp ha with ha | ha
    · exact absurd ha.symm (haccepted k r)
    · exact h.ids k r ha
  current c hc := by
    obtain ⟨hlt, hnk, hret⟩ := h.current c hc
    refine ⟨hlt, fun hk => ?_, hret⟩
    rcases List.mem_cons.mp hk with hk | hk
    · exact hkilled c hk.symm
    · exact hnk hk
  disposed hd := by
    rcases List.mem_cons.mp hd with hd | hd
    · exact hdisposed hd.symm
    · exact h.disposed hd
  killed c hk := by
    rcases List.mem_cons.mp hk with hk | hk
    · exact absurd hk.symm (hkilled c)
    · exact (h.killed c hk).imp_left (List.mem_cons_of_mem _)
  reapers := h.reapers
  ready hr := by
    obtain ⟨c, i, hc, hg⟩ := h.ready hr
    exact ⟨c, i, hc, List.mem_cons_of_mem _ hg⟩

/-- Dropping the child: it is killed and waited for, or it had exited. -/
theorem dropChild {m : Machine} (h : Core m) : Core m.dropChild := by
  rw [Machine.dropChild]
  cases hc : m.worker.child with
  | none =>
      exact { h with
        current := by simp
        ready := by simp }
  | some c =>
      obtain ⟨hlt, hnk, hret⟩ := h.current c hc
      have hreap := h.reapers.2 hret
      simp only [Machine.retire]
      split
      · exact { h with
          current := by simp
          ready := by simp }
      · refine { h with
          justified := ⟨trivial, h.justified⟩
          pending := ?_
          opening := ?_
          calls := List.forall_mem_cons.mpr ⟨nofun, h.calls⟩
          children := ?_
          ids := by simpa using h.ids
          current := by simp
          disposed := by simpa using h.disposed
          killed := ?_
          reapers := by simp [hreap]
          ready := by simp }
        · exact fun p hp => ⟨List.mem_cons_of_mem _ (h.pending p hp).1,
            unsettled_cons.mpr ⟨rfl, (h.pending p hp).2⟩⟩
        · exact fun k hk => ⟨List.mem_cons_of_mem _ (h.opening k hk).1,
            unsettled_cons.mpr ⟨rfl, (h.opening k hk).2⟩⟩
        · refine List.forall_mem_cons.mpr ⟨fun d hd => ?_, h.children⟩
          obtain rfl : c = d := Option.some.inj hd
          exact hlt
        · intro d hd
          rcases List.mem_cons.mp hd with hd | hd
          · obtain rfl : d = c := Entry.killed.inj hd
            exact .inr ⟨rfl, List.mem_cons_self⟩
          · -- nothing was being retired, so every child killed before has closed
            rcases h.killed d hd with hcl | ⟨hr, -⟩
            · exact .inl (List.mem_cons_of_mem _ hcl)
            · rw [hret] at hr
              cases hr

/-- Settling the opening: its timer is disarmed first. -/
theorem settleOpening {m : Machine} {k : CallId} {e : Entry} (h : Core m)
    (hk : m.worker.opening = some k) (he : allowed m.trace e) (hcall : e.call? = some k)
    (hchild : e.child? = none) (hacc : ∀ k r, e ≠ .accepted k r) (hkill : ∀ c, e ≠ .killed c)
    (hdisp : e ≠ .disposed) :
    Core ((m.dropOpening k).record e) := by
  have hp : m.worker.pending = none := h.exclusive.resolve_right (by simp [hk])
  refine record ?_ he ?_ (by simp [hchild]) (by simp [hp]) (by simp) hacc hkill
    (fun h => absurd h hdisp)
  · refine { h with
      exclusive := .inl hp
      opening := nofun
      timers := ?_
      listeners := ?_ }
    · intro j hj
      obtain ⟨hj, hne⟩ := List.mem_filter.mp hj
      rcases h.timers j hj with ho | ⟨p, hp', -⟩
      · rw [hk] at ho
        simp [Option.some.inj ho] at hne
      · rw [hp] at hp'
        cases hp'
    · intro l hl
      obtain ⟨p, hp', -⟩ := h.listeners l (List.mem_filter.mp hl).1
      rw [hp] at hp'
      cases hp'
  · intro j hj
    rw [hcall] at hj
    obtain rfl : k = j := Option.some.inj hj
    exact h.calls _ (h.opening k hk).1 k rfl

/-- Settling the pending search: its timer and listener are disarmed first. -/
theorem settlePending {m : Machine} {p : Pending} {e : Entry} (h : Core m)
    (hp : m.worker.pending = some p) (he : allowed m.trace e) (hcall : e.call? = some p.call)
    (hchild : e.child? = none) (hacc : ∀ k r, e ≠ .accepted k r) (hkill : ∀ c, e ≠ .killed c)
    (hdisp : e ≠ .disposed) :
    Core ((m.dropPending p.call).record e) := by
  have ho : m.worker.opening = none := h.exclusive.resolve_left (by simp [hp])
  refine record ?_ he ?_ (by simp [hchild]) (by simp) (by simp [ho]) hacc hkill
    (fun h => absurd h hdisp)
  · refine { h with
      exclusive := .inl rfl
      pending := nofun
      timers := ?_
      listeners := ?_ }
    · intro j hj
      obtain ⟨hj, hne⟩ := List.mem_filter.mp hj
      rcases h.timers j hj with ho' | ⟨q, hq, hqj⟩
      · rw [ho] at ho'
        cases ho'
      · rw [hp] at hq
        obtain rfl := Option.some.inj hq
        simp [hqj] at hne
    · intro l hl
      obtain ⟨hl, hne⟩ := List.mem_filter.mp hl
      obtain ⟨q, hq, hql⟩ := h.listeners l hl
      rw [hp] at hq
      obtain rfl := Option.some.inj hq
      simp [hql] at hne
  · intro j hj
    rw [hcall] at hj
    obtain rfl : p.call = j := Option.some.inj hj
    exact h.calls _ (h.pending p hp).1 _ rfl

theorem rejectOpening {m : Machine} (code : WorkerErrorCode) (h : Core m) :
    Core (m.rejectOpening code) := by
  rw [Machine.rejectOpening]
  cases hk : m.worker.opening with
  | none => exact h
  | some k =>
      refine h.settleOpening hk ?_ rfl rfl nofun nofun nofun
      exact ⟨(h.opening k hk).2, .inl (h.opening k hk).1⟩

theorem rejectPending {m : Machine} (code : WorkerErrorCode) (h : Core m) :
    Core (m.rejectPending code) := by
  rw [Machine.rejectPending]
  cases hp : m.worker.pending with
  | none => exact h
  | some p =>
      refine h.settlePending hp ?_ rfl rfl nofun nofun nofun
      exact ⟨(h.pending p hp).2, .inr ⟨p.request, (h.pending p hp).1⟩⟩

end Core

@[simp] theorem Machine.rejectOpening_worker (m : Machine) (code : WorkerErrorCode) :
    (m.rejectOpening code).worker = { m.worker with opening := none } := by
  rw [rejectOpening]
  split
  · rename_i ho
    rw [← ho]
  · rfl

@[simp] theorem Machine.rejectPending_worker (m : Machine) (code : WorkerErrorCode) :
    (m.rejectPending code).worker = { m.worker with pending := none } := by
  rw [rejectPending]
  split
  · rename_i hp
    rw [← hp]
  · rfl

theorem Machine.dropChild_worker (m : Machine) :
    m.dropChild.worker = { m.worker with
      child := none, ready := false, input := [], retiring := m.dropChild.worker.retiring } := by
  rw [dropChild]
  split
  · rfl
  · rw [retire]
    split <;> rfl

/-- The fields `fail` leaves: no call, no child, an empty buffer. -/
theorem Machine.fail_worker (m : Machine) (code : WorkerErrorCode) :
    (m.fail code).worker = { m.worker with
      child := none, ready := false, input := [], retiring := m.dropChild.worker.retiring
      opening := none, pending := none } := by
  rw [fail, rejectPending_worker, rejectOpening_worker, dropChild_worker]

/-- `fail` adds at most a kill and rejections to the trace. -/
theorem Machine.fail_trace (m : Machine) (code : WorkerErrorCode) :
    ∃ added, (m.fail code).trace = added ++ m.trace ∧
      ∀ e ∈ added, (∃ c, e = .killed c) ∨ ∃ k, e = .rejected k code := by
  have hdrop : ∃ added, m.dropChild.trace = added ++ m.trace ∧ ∀ e ∈ added, ∃ c, e = .killed c := by
    rw [dropChild]
    split
    · exact ⟨[], rfl, nofun⟩
    · rename_i c _
      rw [retire]
      split
      · exact ⟨[], rfl, nofun⟩
      · exact ⟨[.killed c], rfl, fun e he => ⟨c, List.mem_singleton.mp he⟩⟩
  obtain ⟨kills, hkills, hk⟩ := hdrop
  have hopen : ∃ added, (m.dropChild.rejectOpening code).trace = added ++ m.dropChild.trace ∧
      ∀ e ∈ added, ∃ k, e = .rejected k code := by
    rw [rejectOpening]
    split
    · exact ⟨[], rfl, nofun⟩
    · rename_i k _
      exact ⟨[.rejected k code], rfl, fun e he => ⟨k, List.mem_singleton.mp he⟩⟩
  obtain ⟨opens, hopens, ho⟩ := hopen
  have hpend : ∃ added, (m.fail code).trace = added ++ (m.dropChild.rejectOpening code).trace ∧
      ∀ e ∈ added, ∃ k, e = .rejected k code := by
    rw [fail, rejectPending]
    split
    · exact ⟨[], rfl, nofun⟩
    · rename_i p _
      exact ⟨[.rejected p.call code], rfl, fun e he => ⟨p.call, List.mem_singleton.mp he⟩⟩
  obtain ⟨pends, hpends, hp⟩ := hpend
  refine ⟨pends ++ (opens ++ kills), ?_, fun e he => ?_⟩
  · rw [hpends, hopens, hkills, List.append_assoc, List.append_assoc]
  · rcases List.mem_append.mp he with he | he
    · exact .inr (hp e he)
    · exact (List.mem_append.mp he).elim (fun he => .inr (ho e he)) fun he => .inl (hk e he)

theorem Machine.mem_trace_fail {m : Machine} {e : Entry} (code : WorkerErrorCode) (he : e ∈ m.trace) :
    e ∈ (m.fail code).trace := by
  obtain ⟨added, ht, -⟩ := m.fail_trace code
  rw [ht]
  exact List.mem_append_right _ he

/-- `fail` brings back the invariant from the middle of any handler. -/
theorem inv_fail {m : Machine} (code : WorkerErrorCode) (h : Core m) : Inv (m.fail code) := by
  have hcore : Core (m.fail code) := (h.dropChild.rejectOpening code).rejectPending code
  exact { hcore with
    served := by simp [Machine.fail_worker]
    alive := by simp [Machine.fail_worker]
    opened := by simp [Machine.fail_worker]
    unwritten := by simp [Machine.fail_worker]
    written := by simp [Machine.fail_worker] }

/-! ## §4 — `start` and `send`. -/

/-- A child is started for a call that has written nothing, with nobody left to wait for. -/
theorem inv_start {m : Machine} (h : Core m) (hret : m.worker.retiring = false)
    (hdis : m.worker.disposed = false)
    (hw : ∀ p, m.worker.pending = some p → Unwritten p.call m.trace) : Inv m.start where
  justified := by
    refine ⟨⟨fun e he hc => ?_, fun hd => ?_, fun d hd => ?_⟩, h.justified⟩
    · exact Nat.lt_irrefl _ (h.children e he _ hc)
    · rw [h.disposed hd] at hdis
      cases hdis
    · refine (h.killed d hd).resolve_right fun hr => ?_
      rw [hret] at hr
      cases hr.1
  exclusive := h.exclusive
  pending p hp :=
    ⟨List.mem_cons_of_mem _ (h.pending p hp).1, unsettled_cons.mpr ⟨rfl, (h.pending p hp).2⟩⟩
  opening k hk :=
    ⟨List.mem_cons_of_mem _ (h.opening k hk).1, unsettled_cons.mpr ⟨rfl, (h.opening k hk).2⟩⟩
  timers := h.timers
  listeners := h.listeners
  calls := List.forall_mem_cons.mpr ⟨nofun, h.calls⟩
  children := by
    refine List.forall_mem_cons.mpr ⟨fun c hc => ?_, fun e he c hc => ?_⟩
    · obtain rfl : m.children = c := Option.some.inj hc
      exact Nat.lt_succ_self _
    · exact Nat.lt_succ_of_lt (h.children e he c hc)
  ids k r ha := by
    rcases List.mem_cons.mp ha with ha | ha
    · cases ha
    · exact h.ids k r ha
  current c hc := by
    obtain rfl : m.children = c := Option.some.inj hc
    refine ⟨Nat.lt_succ_self _, fun hk => ?_, hret⟩
    rcases List.mem_cons.mp hk with hk | hk
    · cases hk
    · exact Nat.lt_irrefl _ (h.children _ hk _ rfl)
  disposed hd := by
    rcases List.mem_cons.mp hd with hd | hd
    · cases hd
    · exact h.disposed hd
  killed c hk := by
    rcases List.mem_cons.mp hk with hk | hk
    · cases hk
    · exact (h.killed c hk).imp_left (List.mem_cons_of_mem _)
  reapers := h.reapers
  ready := nofun
  served _ := by simp [Machine.start]
  alive _ := hdis
  opened := nofun
  unwritten p hp _ := unwritten_cons.mpr ⟨rfl, hw p hp⟩
  written _ _ _ hr := by cases hr

/-- Writing the frame of a call that has written nothing, to a child that has greeted. -/
theorem inv_send {m : Machine} (rt : Runtime) (h : Core m) (hready : m.worker.ready = true)
    (ho : m.worker.opening = none) (halive : m.worker.disposed = false)
    (hw : ∀ p, m.worker.pending = some p → Unwritten p.call m.trace) : Inv (m.send rt) := by
  obtain ⟨c, i, hc, hg⟩ := h.ready hready
  rw [Machine.send]
  cases hp : m.worker.pending with
  | none =>
      exact { h with
        served := by simp [hp, ho]
        alive := fun _ => halive
        opened := fun _ => ho
        unwritten := by simp [hp]
        written := by simp [hp] }
  | some p =>
      simp only [hc]
      have htick : Core m.tick := { h with }
      split
      · exact inv_fail .deadline htick
      · obtain ⟨hacc, huns⟩ := h.pending p hp
        refine { htick.record (e := .wrote c p.call _) ?_ ?_ ?_ (fun _ _ => rfl) (fun _ _ => rfl)
          nofun nofun nofun with
          served := by simp [hc]
          alive := fun _ => halive
          opened := fun _ => ho
          unwritten := by simp [hready]
          written := ?_ }
        · exact ⟨hw p hp, huns, ⟨i, hg⟩, (h.current c hc).2.1, p.request, _, hacc, rfl⟩
        · intro k hk
          obtain rfl : p.call = k := Option.some.inj hk
          exact h.calls _ hacc _ rfl
        · intro d hd
          obtain rfl : c = d := Option.some.inj hd
          exact (h.current c hc).1
        · intro q d hq _ hd
          obtain rfl : p = q := Option.some.inj (hp.symm.trans hq)
          obtain rfl : c = d := Option.some.inj (hc.symm.trans hd)
          exact ⟨_, List.mem_cons_self⟩

/-! ## §5 — the stdout handler. -/

section Data

variable {m : Machine} {rt : Runtime} {c : ChildId} {message : Json} {size : Nat}

theorem core_delivered (h : Core m) (hc : c < m.children) :
    Core (m.record (.delivered c message size)) := by
  refine h.record trivial nofun ?_ (fun _ _ => rfl) (fun _ _ => rfl) nofun nofun nofun
  intro d hd
  obtain rfl : c = d := Option.some.inj hd
  exact hc

/-- A hello is taken from a child that is not ready yet, so no frame of the call in flight is out. -/
theorem inv_greet (h : Core m) (hc : m.worker.child = some c) (halive : m.worker.disposed = false)
    (hw : ∀ p, m.worker.pending = some p → Unwritten p.call m.trace) :
    Inv (m.greet rt c message).1 := by
  rw [Machine.greet]
  split
  · exact inv_fail _ h
  · split
    · exact inv_fail _ h
    · rename_i hello _ _
      set identity := hello.rootDev ++ units ":" ++ hello.rootIno
      have hg : Core (m.record (.greeted c identity)) := by
        refine h.record trivial nofun ?_ (fun _ _ => rfl) (fun _ _ => rfl) nofun nofun nofun
        intro d hd
        obtain rfl : c = d := Option.some.inj hd
        exact (h.current c hc).1
      have hadopted : Core ((m.record (.greeted c identity)).adopt identity) :=
        { hg with ready := fun _ => ⟨c, identity, hc, List.mem_cons_self⟩ }
      simp only
      split
      · exact inv_fail _ hg
      · rw [Machine.resolveOpening]
        cases ho : m.worker.opening with
        | none =>
            simp only [Machine.adopt_worker, Machine.record_worker, ho]
            exact inv_send rt hadopted rfl ho halive fun p hp => unwritten_cons.mpr ⟨rfl, hw p hp⟩
        | some k =>
            simp only [Machine.adopt_worker, Machine.record_worker, ho]
            have hpn : m.worker.pending = none := h.exclusive.resolve_right (by simp [ho])
            have hopened := hadopted.settleOpening (e := .opened k) ho
              ⟨(hg.opening k ho).2, (hg.opening k ho).1⟩ rfl rfl nofun nofun nofun
            exact inv_send rt hopened rfl rfl halive (by simp [hpn])

/-- A response settles the search whose request the child got, or the child is dropped. -/
theorem inv_respond (h : Inv m) (hready : m.worker.ready = true) (hc : m.worker.child = some c) :
    Inv ((m.record (.delivered c message size)).respond rt message size).1 := by
  have hd := @core_delivered m c message size h.toCore (h.current c hc).1
  rw [Machine.respond]
  cases hp : m.worker.pending with
  | none =>
      simp only [Machine.record_worker, hp]
      exact inv_fail _ hd
  | some p =>
      simp only [Machine.record_worker, hp]
      split
      · exact inv_fail _ hd
      · rename_i response hv
        have htick : Core (m.record (.delivered c message size)).tick := { hd with }
        split
        · exact inv_fail _ htick
        · obtain ⟨frame, hframe⟩ := h.written p c hp hready hc
          obtain ⟨hacc, huns⟩ := h.pending p hp
          have ho : m.worker.opening = none := h.opened hready
          refine { htick.settlePending (e := .resolved p.call response) hp ?_ rfl rfl nofun nofun nofun with
            served := by simp [ho]
            alive := fun _ => h.alive (by simp [hc])
            opened := fun _ => ho
            unwritten := by simp
            written := by simp }
          exact ⟨unsettled_cons.mpr ⟨rfl, huns⟩, c, p.request, message, size, frame, m.trace, rfl,
            hframe, hacc, (h.current c hc).2.1, hv⟩

theorem inv_deliver (h : Inv m) (hc : m.worker.child = some c) :
    Inv (m.deliver rt c message size).1 := by
  simp only [Machine.deliver]
  split
  · rename_i hready
    exact inv_respond h hready hc
  · rename_i hready
    have hnr : m.worker.ready = false := Bool.eq_false_iff.mpr hready
    refine inv_greet (core_delivered h.toCore (h.current c hc).1) hc (h.alive (by simp [hc])) ?_
    exact fun p hp => unwritten_cons.mpr ⟨rfl, h.unwritten p hp hnr⟩

/-- Behind `send` the child is the one before, or the buffer is empty. -/
theorem send_current (rt : Runtime) {m : Machine} (hc : m.worker.child = some c) :
    (m.send rt).worker.child = some c ∨ (m.send rt).worker.input = [] := by
  rw [Machine.send]
  split
  · simp only
    split
    · exact .inr (by rw [Machine.fail_worker])
    · exact .inl hc
  · exact .inl hc

/-- Behind a frame that does not leave the loop the child is still current, or the buffer is empty. -/
theorem deliver_current (hc : m.worker.child = some c)
    (hcont : (m.deliver rt c message size).2 = true) :
    (m.deliver rt c message size).1.worker.child = some c ∨
      (m.deliver rt c message size).1.worker.input = [] := by
  revert hcont
  simp only [Machine.deliver]
  split
  · rw [Machine.respond]
    split
    · exact nofun
    · split
      · exact nofun
      · split
        · exact nofun
        · exact fun _ => .inl hc
  · rw [Machine.greet]
    split
    · exact nofun
    · split
      · exact nofun
      · simp only
        split
        · exact nofun
        · refine fun _ => send_current rt ?_
          rw [Machine.resolveOpening]
          split <;> exact hc

end Data

/-- The data loop: every round delivers a frame of the current child or drops the child. -/
theorem inv_drain (rt : Runtime) (c : ChildId) (fuel : Nat) : ∀ m : Machine, Inv m →
    m.worker.child = some c ∨ m.worker.input = [] → Inv (m.drain rt c fuel) := by
  induction fuel with
  | zero => exact fun m h _ => h
  | succ fuel ih =>
      intro m h hc
      rw [Machine.drain]
      split
      · exact h
      · rename_i hlen
        have hcur : m.worker.child = some c := by
          refine hc.resolve_right fun hnil => hlen ?_
          rw [hnil]
          decide
        simp only
        split
        · exact inv_fail _ h.toCore
        · split
          · exact h
          · set m' : Machine := { m with
              worker := { m.worker with input := m.worker.input.drop (readBe32 m.worker.input + 4) } }
              with hm'
            have h' : Inv m' := { h with }
            split
            · exact inv_fail _ h'.toCore
            · split
              · rename_i hcont
                exact ih _ (inv_deliver h' hcur) (deliver_current hcur hcont)
              · exact inv_deliver h' hcur

theorem inv_onData {m : Machine} (rt : Runtime) (c : ChildId) (chunk : Bytes) (h : Inv m) :
    Inv (m.onData rt c chunk) := by
  rw [Machine.onData]
  split
  · exact h
  · rename_i hc
    rw [ne_eq, not_not] at hc
    split
    · exact inv_fail _ h.toCore
    · exact inv_drain rt c _ _ { h with } (.inl hc)

/-! ## §6 — the calls and the other events. -/

theorem requestId_injective : Function.Injective requestId := by
  intro n k h
  have hdigits : Nat.toDigits 10 n = Nat.toDigits 10 k :=
    List.append_cancel_left (Utf16.encode_injective h)
  calc n = Nat.ofDigitChars 10 (Nat.toDigits 10 n) 0 := Nat.ofDigitChars_ten_toDigits.symm
    _ = Nat.ofDigitChars 10 (Nat.toDigits 10 k) 0 := by rw [hdigits]
    _ = k := Nat.ofDigitChars_ten_toDigits

/-- The schema keeps the id it is given. -/
theorem workerRequestSchema_id {id : JsString} {v : Json} {r : WorkerRequest}
    (h : workerRequestSchema id v = some r) : r.id = id := by
  obtain ⟨_, _, h⟩ := bind_some h
  iterate 12 obtain ⟨_, _, h⟩ := bind_some h
  obtain rfl := Option.some.inj h
  rfl

theorem acceptInput_id {id : JsString} {input : List (List UInt16 × Json)} {r : WorkerRequest}
    (h : acceptInput id input = some r) : r.id = id :=
  workerRequestSchema_id (Option.eq_some_of_filter_eq_some h)

/-- The machine of a search past its checks, before anything is done about its process. -/
def Machine.admitted (rt : Runtime) (request : WorkerRequest) (signal : Option SignalId) (m : Machine) : Machine :=
  { m with
    worker := { m.worker with
      sequence := m.worker.sequence + 1
      pending := some { call := m.calls, request := request, startedAt := rt.clock m.ticks } }
    ticks := m.ticks + 1
    calls := m.calls + 1
    timers := m.calls :: m.timers
    listeners := (signal.map (m.calls, ·)).toList ++ m.listeners
    trace := .accepted m.calls request :: m.trace }

theorem Machine.accept_eq (rt : Runtime) (request : WorkerRequest) (signal : Option SignalId) (m : Machine) :
    m.accept rt request signal =
      if signal.any (m.aborted.contains ·) then (m.admitted rt request signal).fail .cancelled
      else if m.worker.child = none then (m.admitted rt request signal).start
      else if m.worker.ready then (m.admitted rt request signal).send rt
      else m.admitted rt request signal := rfl

section Admitted

variable {rt : Runtime} {request : WorkerRequest} {signal : Option SignalId} {m : Machine}

/-- No entry is about a call that was not made. -/
theorem fresh_call (h : Core m) : ∀ e ∈ m.trace, e.call? ≠ some m.calls := fun e he hc =>
  Nat.lt_irrefl _ (h.calls e he _ hc)

theorem core_admitted (h : Core m) (hid : request.id = requestId (m.worker.sequence + 1))
    (hp : m.worker.pending = none) (ho : m.worker.opening = none) : Core (m.admitted rt request signal) := by
  have huns : Unsettled m.calls m.trace := fun e he => by
    by_contra hs
    exact fresh_call h e he (settles_call? (Bool.not_eq_false _ ▸ hs))
  refine { h with
    justified := ⟨⟨fresh_call h, fun k q hq he => ?_⟩, h.justified⟩
    exclusive := .inr ho
    pending := ?_
    opening := by simp [Machine.admitted, ho]
    timers := ?_
    listeners := ?_
    calls := ?_
    children := List.forall_mem_cons.mpr ⟨fun c hc => (by cases hc), h.children⟩
    ids := ?_
    current := ?_
    disposed := by simpa [Machine.admitted] using h.disposed
    killed := ?_
    ready := ?_ }
  · obtain ⟨n, hn, hqn⟩ := h.ids k q hq
    rw [hqn, hid] at he
    exact absurd (requestId_injective he) (by omega)
  · intro p hp'
    obtain rfl := Option.some.inj hp'
    exact ⟨List.mem_cons_self, unsettled_cons.mpr ⟨rfl, huns⟩⟩
  · refine List.forall_mem_cons.mpr ⟨.inr ⟨_, rfl, rfl⟩, fun k hk => ?_⟩
    rcases h.timers k hk with ho' | ⟨q, hq, -⟩
    · rw [ho] at ho'
      cases ho'
    · rw [hp] at hq
      cases hq
  · intro l hl
    refine ⟨_, rfl, ?_⟩
    rcases List.mem_append.mp hl with hl | hl
    · cases signal with
      | none => cases hl
      | some s =>
          obtain rfl : l = (m.calls, s) := by simpa using hl
          rfl
    · obtain ⟨q, hq, -⟩ := h.listeners l hl
      rw [hp] at hq
      cases hq
  · refine List.forall_mem_cons.mpr ⟨fun k hk => ?_, fun e he k hk => ?_⟩
    · obtain rfl : m.calls = k := Option.some.inj hk
      exact Nat.lt_succ_self _
    · exact Nat.lt_succ_of_lt (h.calls e he k hk)
  · intro k r ha
    rcases List.mem_cons.mp ha with ha | ha
    · obtain ⟨-, rfl⟩ := Entry.accepted.inj ha
      exact ⟨_, Nat.le_refl _, hid⟩
    · obtain ⟨n, hn, hr⟩ := h.ids k r ha
      exact ⟨n, Nat.le_succ_of_le hn, hr⟩
  · simpa [Machine.admitted] using h.current
  · simpa [Machine.admitted] using h.killed
  · simpa [Machine.admitted] using h.ready

/-- Its request has not been written. -/
theorem unwritten_admitted (h : Core m) :
    ∀ p, (m.admitted rt request signal).worker.pending = some p →
      Unwritten p.call (m.admitted rt request signal).trace := by
  intro p hp
  obtain rfl := Option.some.inj hp
  refine unwritten_cons.mpr ⟨rfl, fun e he => ?_⟩
  by_contra hs
  exact fresh_call h e he (writes_call? (Bool.not_eq_false _ ▸ hs))

end Admitted

/-- A search past its checks: nothing was in flight, its number is fresh. -/
theorem inv_accept {m : Machine} (rt : Runtime) (request : WorkerRequest) (signal : Option SignalId)
    (h : Inv m) (hid : request.id = requestId (m.worker.sequence + 1))
    (hp : m.worker.pending = none) (ho : m.worker.opening = none)
    (hret : m.worker.retiring = false) (hdis : m.worker.disposed = false) :
    Inv (m.accept rt request signal) := by
  have hcore : Core (m.admitted rt request signal) := core_admitted h.toCore hid hp ho
  have hw := @unwritten_admitted rt request signal m h.toCore
  rw [Machine.accept_eq]
  split
  · exact inv_fail _ hcore
  · split
    · exact inv_start hcore hret hdis hw
    · split
      · rename_i hr
        exact inv_send rt hcore hr ho hdis hw
      · rename_i hc hr
        exact { hcore with
          served := fun _ => hc
          alive := fun _ => hdis
          opened := fun hr' => absurd hr' hr
          unwritten := fun p hp' _ => hw p hp'
          written := fun _ _ _ hr' => absurd hr' hr }

theorem inv_search {m : Machine} (rt : Runtime) (input : List (List UInt16 × Json))
    (signal : Option SignalId) (h : Inv m) : Inv (m.search rt input signal).2 := by
  rw [Machine.search]
  split
  · exact h
  · split
    · exact h
    · split
      · exact h
      · split
        · exact h
        · split
          · exact h
          · rename_i hdis hbusy hret _ _ request hacc
            simp only [Bool.or_eq_true, not_or, Bool.not_eq_true, Option.isSome_eq_false_iff,
              Option.isNone_iff_eq_none] at hbusy hret hdis
            exact inv_accept rt request signal h (acceptInput_id hacc) hbusy.1 hbusy.2 hret hdis

theorem inv_openRoot {m : Machine} (h : Inv m) : Inv m.openRoot.2 := by
  rw [Machine.openRoot]
  split
  · exact h
  · split
    · exact h
    · split
      · exact h
      · split
        · exact h
        · rename_i hdis hr hbusy hret
          simp only [Bool.or_eq_true, not_or, Bool.not_eq_true, Option.isSome_eq_false_iff,
            Option.isNone_iff_eq_none] at hbusy hret hdis
          have hfresh : ∀ e ∈ m.trace, e.call? ≠ some m.calls := fun e he hc =>
            Nat.lt_irrefl _ (h.calls e he _ hc)
          refine inv_start ?_ hret hdis (by simp [hbusy.2])
          refine { h with
            justified := ⟨hfresh, h.justified⟩
            exclusive := .inl hbusy.2
            pending := by simp [hbusy.2]
            opening := ?_
            timers := ?_
            listeners := ?_
            calls := ?_
            children := List.forall_mem_cons.mpr ⟨nofun, h.children⟩
            ids := by simpa using h.ids
            current := by simpa using h.current
            disposed := by simpa using h.disposed
            killed := by simpa using h.killed
            ready := by simpa using h.ready }
          · intro k hk
            obtain rfl : m.calls = k := Option.some.inj hk
            refine ⟨List.mem_cons_self, unsettled_cons.mpr ⟨rfl, fun e he => ?_⟩⟩
            by_contra hs
            exact hfresh e he (settles_call? (Bool.not_eq_false _ ▸ hs))
          · refine List.forall_mem_cons.mpr ⟨.inl rfl, fun k hk => ?_⟩
            rcases h.timers k hk with ho' | ⟨q, hq, -⟩
            · rw [hbusy.1] at ho'
              cases ho'
            · rw [hbusy.2] at hq
              cases hq
          · intro l hl
            obtain ⟨q, hq, -⟩ := h.listeners l hl
            rw [hbusy.2] at hq
            cases hq
          · refine List.forall_mem_cons.mpr ⟨fun k hk => ?_, fun e he k hk => ?_⟩
            · obtain rfl : m.calls = k := Option.some.inj hk
              exact Nat.lt_succ_self _
            · exact Nat.lt_succ_of_lt (h.calls e he k hk)

theorem inv_close {m : Machine} (h : Inv m) : Inv m.close := by
  have hdis : Core { m with worker := { m.worker with disposed := true } } :=
    { h with disposed := fun _ => rfl }
  exact inv_fail _ (hdis.record trivial nofun nofun (fun _ _ => rfl) (fun _ _ => rfl) nofun
    nofun fun _ => rfl)

theorem inv_onTimer {m : Machine} (call : CallId) (h : Inv m) : Inv (m.onTimer call) := by
  rw [Machine.onTimer]
  split
  · exact inv_fail _ { h.toCore with
      timers := fun k hk => h.timers k (List.mem_filter.mp hk).1 }
  · exact h

theorem inv_onAbort {m : Machine} (signal : SignalId) (h : Inv m) : Inv (m.onAbort signal) := by
  rw [Machine.onAbort]
  split
  · exact h
  · generalize m.listeners.filter (·.2 == signal) = snapshot
    have h' : Inv { m with aborted := signal :: m.aborted } := { h with }
    generalize { m with aborted := signal :: m.aborted } = m' at h'
    -- each listener that is still registered fails the call it belongs to
    induction snapshot generalizing m' with
    | nil => exact h'
    | cons l ls ih =>
        rw [List.foldl_cons]
        refine ih _ ?_
        split
        · exact inv_fail _ { h'.toCore with
            listeners := fun k hk => h'.listeners k (List.mem_filter.mp hk).1 }
        · exact h'

theorem inv_onError {m : Machine} (c : ChildId) (h : Inv m) : Inv (m.onError c) := by
  rw [Machine.onError]
  split
  · exact inv_fail _ h.toCore
  · exact h

/-- An exit or close of a child changes no field. -/
theorem inv_record_child {m : Machine} {c : ChildId} {e : Entry} (h : Inv m) (hc : c < m.children)
    (he : e = .exited c ∨ e = .closed c) : Inv (m.record e) := by
  have hcore : Core (m.record e) := by
    refine h.toCore.record ?_ ?_ ?_ ?_ ?_ ?_ ?_ ?_ <;> rcases he with rfl | rfl <;>
      simp_all [allowed, Entry.call?, Entry.child?, Entry.settles]
  exact { hcore with
    served := h.served
    alive := h.alive
    opened := h.opened
    unwritten := fun p hp hr => unwritten_cons.mpr
      ⟨by rcases he with rfl | rfl <;> rfl, h.unwritten p hp hr⟩
    written := fun p d hp hr hd =>
      (h.written p d hp hr hd).imp fun _ hf => List.mem_cons_of_mem _ hf }

theorem inv_onExit {m : Machine} (c : ChildId) (h : Inv m) : Inv (m.onExit c) := by
  rw [Machine.onExit]
  split
  · rename_i hc
    exact inv_record_child h hc.1 (.inl rfl)
  · exact h

theorem inv_onClose {m : Machine} (c : ChildId) (h : Inv m) : Inv (m.onClose c) := by
  rw [Machine.onClose]
  split
  · rename_i hc
    have hexit : Entry.exited c ∈ m.trace := Machine.hasExited_iff.mp hc.1
    have hrec := inv_record_child h (h.children _ hexit c rfl) (.inr rfl)
    simp only
    set m₁ : Machine := if (m.record (.closed c)).worker.child = some c then
      (m.record (.closed c)).fail .workerExit else m.record (.closed c) with hm₁
    have h₁ : Inv m₁ := by
      rw [hm₁]
      split
      · exact inv_fail _ hrec.toCore
      · exact hrec
    have hclosed : Entry.closed c ∈ m₁.trace := by
      rw [hm₁]
      split
      · exact Machine.mem_trace_fail _ List.mem_cons_self
      · exact List.mem_cons_self
    split
    · rename_i hmem
      -- at most one child is waited for, and it is this one
      have hreap : m₁.reapers = [c] := by
        have hlen := h₁.reapers.1
        rcases hr : m₁.reapers with _ | ⟨d, _ | ⟨d', ds⟩⟩
        · rw [hr] at hmem
          cases hmem
        · rw [hr] at hmem
          rw [List.mem_singleton.mp hmem]
        · rw [hr] at hlen
          simp at hlen
      exact { h₁ with
        current := fun d hd => ⟨(h₁.current d hd).1, (h₁.current d hd).2.1, rfl⟩
        killed := fun d hd => .inl ((h₁.killed d hd).elim id fun hd' => by
          rw [hreap] at hd'
          rw [List.mem_singleton.mp hd'.2]
          exact hclosed)
        reapers := by simp [hreap] }
    · exact h₁
  · exact h

/-- **The step lemma.** Every entry into the worker keeps the invariant. -/
theorem inv_step {m : Machine} (rt : Runtime) (e : Event) (h : Inv m) : Inv (m.step rt e) := by
  cases e with
  | search input signal => exact inv_search rt input signal h
  | openRoot => exact inv_openRoot h
  | close => exact inv_close h
  | abort signal => exact inv_onAbort signal h
  | timer call => exact inv_onTimer call h
  | data c chunk => exact inv_onData rt c chunk h
  | childError c | stdinError c => exact inv_onError c h
  | childExit c => exact inv_onExit c h
  | childClose c => exact inv_onClose c h

/-- **The run lemma.** The invariant holds behind every run. -/
theorem inv_after (rt : Runtime) (identity : Option JsString) (events : List Event) :
    Inv (Machine.after rt identity events) :=
  run_invariant (inv_create identity) (fun e _ h => inv_step rt e h) events

/-! ## §7 — what no run does. -/

/-- What it means for a worker never to have mixed up its calls. -/
structure NeverMixes (rt : Runtime) (m : Machine) : Prop where
  /-- One promise in flight at most, and a child to serve it. -/
  exclusive : m.worker.pending = none ∨ m.worker.opening = none
  served : m.worker.pending ≠ none ∨ m.worker.opening ≠ none → m.worker.child ≠ none
  settledOnce : ∀ call, (m.trace.filter (Entry.settles call)).length ≤ 1
  /-- The timer of a settled call does nothing when it fires. -/
  staleTimer : ∀ call, ¬ Unsettled call m.trace → m.step rt (.timer call) = m
  /-- A settled call listens to no signal, and a signal the call in flight does not listen to only
  becomes aborted. -/
  staleListener : ∀ call signal, ¬ Unsettled call m.trace → (call, signal) ∉ m.listeners
  foreignSignal : ∀ signal, signal ∉ m.aborted →
    (∀ p, m.worker.pending = some p → (p.call, signal) ∉ m.listeners) →
    m.step rt (.abort signal) = { m with aborted := signal :: m.aborted }
  /-- A search resolves with the frame its child has just delivered, behind that child's hello and
  the search's own request, and the frame passed the validation for that request. -/
  ownResponse : ∀ later earlier call response, m.trace = later ++ .resolved call response :: earlier →
    ∃ c request message size frame before, earlier = .delivered c message size :: before ∧
      Entry.accepted call request ∈ before ∧
      (∃ between greeting identity, before = between ++ .wrote c call frame :: greeting ∧
        Entry.greeted c identity ∈ greeting) ∧
      Entry.killed c ∉ before ∧ response.id = request.id ∧
      validateWorkerResponse message request size = some response
  /-- No two searches share a request id. -/
  ownId : ∀ call call' request request', Entry.accepted call request ∈ m.trace →
    Entry.accepted call' request' ∈ m.trace → request.id = request'.id → call = call'
  writtenOnce : ∀ call, (m.trace.filter (Entry.writes call)).length ≤ 1
  /-- A child is started only with every killed child closed, and never behind `close()`. -/
  noEarlyStart : ∀ later earlier c, m.trace = later ++ .spawned c :: earlier →
    Entry.disposed ∉ earlier ∧ ∀ d, Entry.killed d ∈ earlier → Entry.closed d ∈ earlier

/-- What `validateWorkerResponse` accepts carries the request's id. -/
theorem validateWorkerResponse_id {message : Json} {request : WorkerRequest} {size : Nat}
    {response : WorkerResponse} (h : validateWorkerResponse message request size = some response) :
    response.id = request.id := by
  rw [validateWorkerResponse] at h
  split at h
  · cases h
  · rename_i r _
    split at h
    · cases h
    · rename_i hid
      rw [Bool.or_eq_true, not_or, decide_eq_true_eq, ne_eq, not_not] at hid
      split at h
      · obtain rfl := Option.some.inj h
        exact hid.1
      · split at h
        · obtain rfl := Option.some.inj h
          exact hid.1
        · cases h

/-- Two accepted searches of a justified trace with one id are the same. -/
theorem accepted_unique {trace : List Entry} (h : Justified allowed trace) {k k' : CallId}
    {r r' : WorkerRequest} (hr : Entry.accepted k r ∈ trace) (hr' : Entry.accepted k' r' ∈ trace)
    (hid : r.id = r'.id) : k = k' := by
  induction trace with
  | nil => cases hr
  | cons e earlier ih =>
      rcases List.mem_cons.mp hr with he | hmem
      · rcases List.mem_cons.mp hr' with he' | hmem'
        · exact (Entry.accepted.inj (he.trans he'.symm)).1
        · subst he
          exact absurd hid.symm (h.1.2 _ _ hmem')
      · rcases List.mem_cons.mp hr' with he' | hmem'
        · subst he'
          exact absurd hid (h.1.2 _ _ hmem)
        · exact ih h.2 hmem hmem'

theorem Core.not_settled_pending {m : Machine} (h : Core m) {k : CallId}
    (hk : ¬ Unsettled k m.trace) : ∀ p, m.worker.pending = some p → p.call ≠ k := by
  rintro p hp rfl
  exact hk (h.pending p hp).2

/-- **The worker client never mixes up calls**, whatever arrives in whatever order. -/
theorem neverMixes_after (rt : Runtime) (identity : Option JsString) (events : List Event) :
    NeverMixes rt (Machine.after rt identity events) := by
  have h := inv_after rt identity events
  generalize Machine.after rt identity events = m at h
  exact {
    exclusive := h.exclusive
    served := h.served
    settledOnce := fun call => h.justified.at_most_once fun earlier e ha he d hd => by
      cases e with
      | opened k | rejected k _ | resolved k _ =>
          obtain rfl : k = call := beq_iff_eq.mp he
          exact ha.1 d hd
      | _ => cases he
    staleTimer := fun call hs => by
      refine if_neg fun ht => ?_
      rcases h.timers call ht with ho | ⟨p, hp, hcall⟩
      · exact hs (h.opening call ho).2
      · exact h.not_settled_pending hs p hp hcall
    staleListener := fun call signal hs hl => by
      obtain ⟨p, hp, hcall⟩ := h.listeners _ hl
      exact h.not_settled_pending hs p hp hcall
    foreignSignal := fun signal ha hf => by
      have hnone : m.listeners.filter (·.2 == signal) = [] := by
        rw [List.filter_eq_nil_iff]
        rintro ⟨call, s⟩ hl hs
        obtain rfl : s = signal := beq_iff_eq.mp hs
        obtain ⟨p, hp, rfl⟩ := h.listeners _ hl
        exact hf p hp hl
      simp only [Machine.step, Machine.onAbort, ha, if_false, hnone, List.foldl_nil]
    ownResponse := fun later earlier call response ht => by
      have hj := h.justified
      rw [ht] at hj
      obtain ⟨-, c, r, message, size, frame, before, rfl, hw, hacc, hk, hv⟩ := hj.entry
      obtain ⟨between, greeting, hbefore⟩ := List.append_of_mem hw
      have hjb : Justified allowed before := hj.of_append.2.2
      rw [hbefore] at hjb
      obtain ⟨-, -, ⟨i, hg⟩, -⟩ := hjb.entry
      exact ⟨c, r, message, size, frame, before, rfl, hacc, ⟨between, greeting, i, hbefore, hg⟩, hk,
        validateWorkerResponse_id hv, hv⟩
    ownId := fun call call' r r' hr hr' hid => accepted_unique h.justified hr hr' hid
    writtenOnce := fun call => h.justified.at_most_once fun earlier e ha he d hd => by
      cases e with
      | wrote c k _ =>
          obtain rfl : k = call := beq_iff_eq.mp he
          exact ha.1 d hd
      | _ => cases he
    noEarlyStart := fun later earlier c ht => by
      have hj := h.justified
      rw [ht] at hj
      exact ⟨hj.entry.2.1, hj.entry.2.2⟩ }

end JevGrep.Client
