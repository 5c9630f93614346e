/-
# `JevGrep.Service.Site` — a request from the service to the worker process and back.

A site is a registry with the processes that its workers start on a root. A visit is one call of `execute`:
the registry is asked, the client writes the request, the process answers the frame, and the registry goes on
behind the promise. Everything on the way is the step of its own model; what is proved is what the way comes
to for a worker with nothing in flight (`search_answered`), whether it has a process or starts one.

* §1 sites and visits; §2 a worker with nothing in flight; §3 the frame is written; §4 the reply;
§5 the registry.
-/
import JevGrep.Client.Together
import JevGrep.Service.Delivery

namespace JevGrep.Service

open JevGrep.Lib JevGrep.Lib.Transition
open JevGrep.Contracts (JsString)
open JevGrep.Worker (Bytes Engine FRAME_CAP toVec writeFrame)
open JevGrep.Client (CallId ChildId Machine Pending Runtime Sendable WorkerRequest WorkerResponse acceptInput
  frameOf requestBody requestFrame requestId validateWorkerResponse)
open JevGrep.Workspace (Host Registry RootWorker Search WorkerId settlement)

/-! ## §1 — sites and visits. -/

/-- A registry's host, the dates of the service, and what the worker processes of a workspace run on. -/
structure Site (σ φ : Type) where
  host : Host
  dates : Dates
  engine : Engine
  os : Worker.Os σ φ
  root : φ

/-- One call of `execute`. -/
structure Visit (σ : Type) where
  /-- What the registry has met before. -/
  events : List Workspace.Event
  /-- The readings of `performance.now()` and `Date.now()` in the service. -/
  clock : Nat → Int
  date : Nat → Nat
  /-- The system as a new process finds it, and as the process finds it that reads the request. -/
  starting : σ
  searching : σ
  /-- The pieces in which the client is handed what a process writes. -/
  pieces : Bytes → List Bytes

section Model

variable {σ φ : Type} (site : Site σ φ) (visit : Visit σ)

/-- The client is handed the pieces of a frame. -/
def handed (c : ChildId) (frame : Bytes) : List Client.Event := (visit.pieces frame).map (.data c)

/-- A process returns. -/
def returned (c : ChildId) : List Client.Event := [.childExit c, .childClose c]

/-- What a process that was started does: it writes its hello, if it can. -/
def Site.greeting (rt : Runtime) (c : ChildId) : List Client.Event :=
  match (site.os.fstat site.root visit.starting).1 with
  | none => returned c
  | some rootStat => (writeFrame (Worker.hello ((rt.pid c).getD 0) rootStat)).elim (returned c) (handed visit c)

/-- What a process does that was sent a frame: it goes once around its loop. -/
def Site.answering (c : ChildId) (frame : Bytes) : List Client.Event :=
  match Worker.round site.engine site.os site.root frame visit.searching with
  | .ends _ => returned c
  | .wrote reply _ _ => handed visit c reply

/-- What the client meets next, by what it has done last. -/
def Site.reaction (rt : Runtime) (m : Machine) : List Client.Event :=
  match m.trace with
  | .spawned c :: _ => site.greeting visit rt c
  | .wrote c _ frame :: _ => site.answering visit c frame
  | _ => []

/-- The client has met it. -/
def Site.reacted (rt : Runtime) (m : Machine) : Machine :=
  run (Machine.step rt) m (site.reaction visit rt m)

/-- Worker `w` has met it. -/
def Site.turn (w : WorkerId) (r : Registry) : Registry :=
  { r with workers := r.workers.modify w fun slot =>
      { slot with machine := site.reacted visit (site.host.runtime w) slot.machine } }

/-- How `search` ended, as `execute` meets it; a promise that is not settled is none of its ends. -/
def endOf : Option (Except Client.WorkerErrorCode Workspace.Answer) → Outcome
  | some (.ok a) => .answered a
  | some (.error code) => .workerError code
  | none => .threw

/-- `registry.search` from its call to its end: the hello of a process, where one is started, its reply, and
what `search` makes of it. -/
def Site.search (v : Json) : Outcome :=
  match (Registry.after site.host visit.events).search site.host v none with
  | (.error code, _) => .workspaceError code
  | (.ok n, asked) =>
      match asked.searches[n]? with
      | none => .threw
      | some s =>
          let answered :=
            (site.turn visit s.entry.worker (site.turn visit s.entry.worker asked)).onSearched site.host n
          endOf ((answered.searches[n]?).bind Search.answer)

/-- What the call of `execute` meets; it has no abort signal. -/
def Site.world : World where
  sha256 := site.host.sha256
  dates := site.dates
  clock := visit.clock
  date := visit.date
  abortedBefore := false
  abortedAfter := false
  search := site.search visit

end Model

/-! ## §2 — a worker with nothing in flight. -/

/-- A worker that can start a process and be told the identity that it expects. -/
structure Startable {σ φ : Type} (site : Site σ φ) (visit : Visit σ) (rt : Runtime) (m : Machine) : Prop where
  absent : m.worker.child = none
  process : ∃ pid rootStat, rt.pid m.children = some pid ∧ 0 < pid ∧ Worker.Sized pid rootStat ∧
    (site.os.fstat site.root visit.starting).1 = some rootStat ∧
    (m.worker.rootIdentity = none ∨ m.worker.rootIdentity = some (Client.identityOf rootStat))

/-- A worker whose process runs, and has been heard to its last byte. -/
structure Running (m : Machine) : Prop where
  process : ∃ c, m.worker.child = some c ∧ m.hasExited c = false ∧ m.hasClosed c = false
  ready : m.worker.ready = true
  heard : m.worker.input = []

/-- A worker with nothing in flight, which is neither closed nor being restarted. -/
structure Idle {σ φ : Type} (site : Site σ φ) (visit : Visit σ) (rt : Runtime) (m : Machine) : Prop where
  pending : m.worker.pending = none
  opening : m.worker.opening = none
  disposed : m.worker.disposed = false
  retiring : m.worker.retiring = false
  numbered : m.worker.sequence < Schema.MAX_SAFE_INTEGER
  started : Running m ∨ Startable site visit rt m

/-- The milliseconds that are left of a search when the client writes it. -/
def leftMs (rt : Runtime) (m : Machine) (deadlineMs : Nat) : Nat :=
  ((deadlineMs * 1000000 - (rt.clock (m.ticks + 1) - rt.clock m.ticks)) / 1000000).toNat

/-- The deadline of a search passes neither in the client nor in the worker. -/
structure Prompt {σ φ : Type} (site : Site σ φ) (visit : Visit σ) (rt : Runtime) (m : Machine)
    (deadlineMs : Nat) : Prop where
  ahead : rt.clock m.ticks ≤ rt.clock (m.ticks + 1)
  sent : 1 ≤ leftMs rt m deadlineMs
  answered : rt.clock (m.ticks + 2) - rt.clock m.ticks < deadlineMs * 1000000
  worker : ∀ s, (site.os.now s).1 < (site.os.now visit.searching).1 + leftMs rt m deadlineMs * 1000000

/-! ## §3 — the frame is written. -/

/-- A search has been written to a process, which has not answered it. -/
structure Written (rt : Runtime) (m₀ : Machine) (request : WorkerRequest) (n : Nat) (c : ChildId) (m : Machine) :
    Prop where
  trace : ∃ earlier, m.trace = .wrote c m₀.calls (requestFrame request n) :: earlier
  child : m.worker.child = some c
  spawned : c < m.children
  alive : m.hasExited c = false ∧ m.hasClosed c = false
  ready : m.worker.ready = true
  heard : m.worker.input = []
  pending : m.worker.pending = some ⟨m₀.calls, request, rt.clock m₀.ticks⟩
  ticks : m.ticks = m₀.ticks + 2

section Machines

variable {σ φ : Type} {site : Site σ φ} {visit : Visit σ} {rt : Runtime} {m m₀ : Machine} {c : ChildId}
  {p : Pending} {request : WorkerRequest} {n : Nat}

/-- A frame that is handed over in pieces is taken whole. -/
theorem run_pieces {body : Bytes} (hbody : Sendable body) : ∀ (pieces : List Bytes) {m : Machine},
    m.worker.child = some c → pieces ≠ [] → (∀ piece ∈ pieces, piece ≠ []) →
    m.worker.input ++ pieces.flatten = frameOf body →
    run (Machine.step rt) m (pieces.map (.data c)) = m.take rt c body
  | [], _, _, hne, _, _ => absurd rfl hne
  | [piece], m, hc, _, _, hframe => by
      -- the last piece completes the frame
      rw [List.flatten_singleton] at hframe
      exact Client.onData_complete hc hbody hframe
  | piece :: next :: rest, m, hc, _, hpieces, hframe => by
      rw [List.flatten_cons, ← List.append_assoc] at hframe
      have hrest : (next :: rest).flatten ≠ [] := by
        rw [List.flatten_cons]
        exact fun hnil => hpieces next (List.mem_cons_of_mem _ List.mem_cons_self)
          (List.append_eq_nil_iff.1 hnil).1
      -- before it nothing is done but to keep what has come
      have hstep : m.step rt (.data c piece) = m.buffer piece :=
        Client.onData_partial hc hbody hrest hframe
      have hlater : run (Machine.step rt) (m.buffer piece) ((next :: rest).map (.data c))
          = (m.buffer piece).take rt c body :=
        run_pieces hbody (next :: rest) hc (List.cons_ne_nil _ _)
          (fun piece hmem => hpieces piece (List.mem_cons_of_mem _ hmem)) hframe
      show run (Machine.step rt) (m.step rt (.data c piece)) ((next :: rest).map (.data c)) = _
      rw [hstep, hlater]
      rfl

/-- Pieces that give a frame back. -/
def Whole (pieces : Bytes → List Bytes) : Prop :=
  ∀ frame, (pieces frame).flatten = frame ∧ ∀ piece ∈ pieces frame, piece ≠ []

theorem run_handed (hpieces : Whole visit.pieces) {body : Bytes} (hbody : Sendable body)
    (hc : m.worker.child = some c) (hheard : m.worker.input = []) :
    run (Machine.step rt) m (handed visit c (frameOf body)) = m.take rt c body := by
  obtain ⟨hflat, hne⟩ := hpieces (frameOf body)
  refine run_pieces hbody _ hc (fun hnil => ?_) hne ?_
  · have hlength := Client.length_frameOf body
    rw [← hflat, hnil] at hlength
    cases hlength
  · rw [hheard, hflat]
    rfl

theorem send_writes (hp : m.worker.pending = some p) (hc : m.worker.child = some c)
    (hleft : 0 < Client.remainingMs p (rt.clock m.ticks)) :
    m.send rt = m.tick.record
      (.wrote c p.call (requestFrame p.request (Client.remainingMs p (rt.clock m.ticks)).toNat)) := by
  rw [Machine.send, hp, hc]
  simp only
  rw [if_neg (Int.not_le.2 hleft)]

/-- A call without a signal. -/
theorem accept_none : m.accept rt request none = if m.worker.child = none then (m.admitted rt request none).start
    else if m.worker.ready then (m.admitted rt request none).send rt else m.admitted rt request none := rfl

/-- A process that runs is written to at once. -/
theorem written_running (hinv : Client.Inv m) (hrunning : Running m) (hsent : 1 ≤ leftMs rt m request.deadlineMs) :
    ∃ c, Written rt m request (leftMs rt m request.deadlineMs) c (m.accept rt request none) := by
  obtain ⟨c, hc, hexited, hclosed⟩ := hrunning.process
  have hne : ¬m.worker.child = none := by
    rw [hc]
    exact Option.some_ne_none c
  have hleft : 0 < Client.remainingMs ⟨m.calls, request, rt.clock m.ticks⟩ (rt.clock (m.ticks + 1)) := by
    unfold leftMs at hsent
    unfold Client.remainingMs
    dsimp only
    omega
  have hsend := @send_writes rt (m.admitted rt request none) c ⟨m.calls, request, rt.clock m.ticks⟩ rfl hc hleft
  refine ⟨c, ?_⟩
  rw [accept_none, if_neg hne, if_pos hrunning.ready, hsend]
  exact {
    trace := ⟨_, rfl⟩
    child := hc
    spawned := (hinv.current c hc).1
    alive := ⟨hexited, hclosed⟩
    ready := hrunning.ready
    heard := hrunning.heard
    pending := rfl
    ticks := rfl }

/-- The worker that has taken the hello of a process. -/
def welcomed (c : ChildId) (hello : Json) (identity : JsString) (m : Machine) : Machine :=
  (((({ m with worker := { m.worker with input := [] } } : Machine).record
    (.delivered c hello (toVec hello).length)).record (.greeted c identity)).adopt identity)

/-- A hello with the identity that is expected is taken, and the search that has waited for it is sent. -/
theorem take_hello {pid : Nat} {rootStat : Worker.Stat}
    (hreads : rt.parse (toVec (Worker.hello pid rootStat)) = some (Worker.hello pid rootStat))
    (hpid : rt.pid c = some pid) (hpos : 0 < pid) (hsized : Worker.Sized pid rootStat)
    (hready : m.worker.ready = false) (hopening : m.worker.opening = none)
    (hidentity : m.worker.rootIdentity = none ∨ m.worker.rootIdentity = some (Client.identityOf rootStat)) :
    m.take rt c (toVec (Worker.hello pid rootStat))
      = (welcomed c (Worker.hello pid rootStat) (Client.identityOf rootStat) m).send rt := by
  rw [Machine.take, hreads]
  simp only
  set v := Worker.hello pid rootStat with hv
  set emptied : Machine := { m with worker := { m.worker with input := [] } }
  set delivered := emptied.record (.delivered c v (toVec v).length)
  have hgreets : emptied.deliver rt c v (toVec v).length = delivered.greet rt c v :=
    if_neg (by rw [Machine.record_worker]; exact Bool.eq_false_iff.1 hready)
  rw [hgreets, Machine.greet, hv, Client.workerReadySchema_hello hpos hsized]
  simp only
  rw [if_neg (not_not.2 hpid.symm)]
  set greeted := delivered.record (.greeted c (Client.identityOf rootStat))
  have hknown : ¬(greeted.worker.rootIdentity ≠ none ∧
      greeted.worker.rootIdentity ≠ some (Client.identityOf rootStat)) := by
    rintro ⟨hsome, hother⟩
    exact hidentity.elim hsome hother
  show (if greeted.worker.rootIdentity ≠ none ∧
    greeted.worker.rootIdentity ≠ some (Client.identityOf rootStat) then (greeted.fail .rootChanged, false)
    else ((greeted.adopt (Client.identityOf rootStat)).resolveOpening.send rt, true)).1 = _
  have hwaits : (greeted.adopt (Client.identityOf rootStat)).worker.opening = none := hopening
  have hresolve : (greeted.adopt (Client.identityOf rootStat)).resolveOpening
      = greeted.adopt (Client.identityOf rootStat) := by
    rw [Machine.resolveOpening]
    simp only [hwaits]
  rw [if_neg hknown, hresolve]
  rfl

theorem hasClosed_iff : m.hasClosed c = true ↔ Client.Entry.closed c ∈ m.trace := by
  rw [Machine.hasClosed, List.any_eq_true]
  constructor
  · rintro ⟨e, he, h⟩
    cases e with
    | closed d =>
        obtain rfl : d = c := beq_iff_eq.mp h
        exact he
    | _ => cases h
  · exact fun h => ⟨_, h, beq_self_eq_true c⟩

/-- A process that is started greets, and is written to then. -/
theorem written_starting (hinv : Client.Inv m) (hreads : ∀ v, rt.parse (toVec v) = some v)
    (hpieces : Whole visit.pieces) (hopening : m.worker.opening = none) (hstart : Startable site visit rt m)
    (hsent : 1 ≤ leftMs rt m request.deadlineMs) :
    ∃ c, Written rt m request (leftMs rt m request.deadlineMs) c
      (site.reacted visit rt (m.accept rt request none)) := by
  obtain ⟨pid, rootStat, hpid, hpos, hsized, hstat, hidentity⟩ := hstart.process
  set started := (m.admitted rt request none).start
  set c := m.children
  set v := Worker.hello pid rootStat with hv
  have haccept : m.accept rt request none = started := by
    rw [accept_none, if_pos hstart.absent]
  -- the child is written to when its hello has been taken
  have hhello : writeFrame v = some (frameOf (toVec v)) := Worker.writeFrame_hello hsized
  have hbody : Sendable (toVec v) := (Client.writeFrame_eq_some hhello).1
  have hreaction : site.reaction visit rt started = handed visit c (frameOf (toVec v)) := by
    have hgreeting : site.reaction visit rt started = site.greeting visit rt c := rfl
    rw [hgreeting, Site.greeting, hstat]
    simp only [hpid, Option.getD_some]
    rw [← hv, hhello]
    rfl
  have htake : site.reacted visit rt started = started.take rt c (toVec v) := by
    rw [Site.reacted, hreaction]
    exact run_handed hpieces hbody rfl rfl
  set ready := welcomed c v (Client.identityOf rootStat) started
  have hready : started.take rt c (toVec v) = ready.send rt :=
    take_hello (hreads _) hpid hpos hsized rfl hopening hidentity
  have hleft : 0 < Client.remainingMs ⟨m.calls, request, rt.clock m.ticks⟩ (rt.clock (m.ticks + 1)) := by
    unfold leftMs at hsent
    unfold Client.remainingMs
    dsimp only
    omega
  have hsend := @send_writes rt ready c ⟨m.calls, request, rt.clock m.ticks⟩ rfl rfl hleft
  -- the child is a new one: nothing is recorded of it
  have hfresh : m.hasExited c = false ∧ m.hasClosed c = false := by
    constructor
    · refine Bool.eq_false_iff.2 fun hexited => ?_
      have hmem := Machine.hasExited_iff.1 hexited
      exact absurd (hinv.children _ hmem c rfl) (Nat.lt_irrefl _)
    · refine Bool.eq_false_iff.2 fun hclosed => ?_
      exact absurd (hinv.children _ (hasClosed_iff.1 hclosed) c rfl) (Nat.lt_irrefl _)
  refine ⟨c, ?_⟩
  rw [haccept, htake, hready, hsend]
  exact {
    trace := ⟨_, rfl⟩
    child := rfl
    spawned := Nat.lt_succ_self _
    alive := hfresh
    ready := rfl
    heard := rfl
    pending := rfl
    ticks := rfl }

end Machines

/-! ## §4 — the reply. -/

section Model

variable {σ φ : Type} (site : Site σ φ) (visit : Visit σ)

/-- What the client makes of a frame that answers a request. -/
def responseOf (rt : Runtime) (request : WorkerRequest) (frame : Bytes) : Option WorkerResponse :=
  (rt.parse (frame.drop 4)).bind fun message => validateWorkerResponse message request (frame.drop 4).length

/-- The response that the client is given for a request, if any, where the process has read `input`. -/
def Site.response (rt : Runtime) (request : WorkerRequest) (input : Bytes) : Option WorkerResponse :=
  match Worker.round site.engine site.os site.root input visit.searching with
  | .ends _ => none
  | .wrote frame _ _ => responseOf rt request frame

end Model

section Machines

variable {σ φ : Type} {site : Site σ φ} {visit : Visit σ} {rt : Runtime} {m m₀ : Machine} {c : ChildId}
  {p : Pending} {request : WorkerRequest} {n : Nat}

/-- What a search came to: its response, or an error. -/
def Ended (call : CallId) (response : Option WorkerResponse) (m : Machine) : Prop :=
  ∃ e earlier, m.trace = e :: earlier ∧
    match response with
    | some response => e = .resolved call response
    | none => ∃ code, e = .rejected call code

theorem ended_fail (code : Client.WorkerErrorCode) (hp : m.worker.pending = some p) :
    Ended p.call none (m.fail code) := by
  have hpending : (m.dropChild.rejectOpening code).worker.pending = some p := by
    rw [Machine.rejectOpening_worker, Machine.dropChild_worker]
    exact hp
  refine ⟨.rejected p.call code, ((m.dropChild.rejectOpening code).dropPending p.call).trace, ?_, code, rfl⟩
  rw [Machine.fail, Machine.rejectPending]
  simp only [hpending]
  rfl

/-- The process returns without an answer. -/
theorem ended_returned (h : Written rt m₀ request n c m) :
    Ended m₀.calls none (run (Machine.step rt) m (returned c)) := by
  set exited := m.record (.exited c)
  set closed := exited.record (.closed c)
  have hexit : m.step rt (.childExit c) = exited := by
    show (if c < m.children ∧ ¬m.hasExited c then exited else m) = exited
    rw [if_pos ⟨h.spawned, by rw [h.alive.1]; exact Bool.false_ne_true⟩]
  have hpending : closed.worker.pending = some ⟨m₀.calls, request, rt.clock m₀.ticks⟩ := h.pending
  -- `exit` is only recorded; it is `close` that rejects
  obtain ⟨e, earlier, htrace, hrejected⟩ := ended_fail .workerExit hpending
  have hclose : (exited.step rt (.childClose c)).trace = e :: earlier := by
    have hexited : exited.hasExited c = true := Machine.hasExited_iff.2 List.mem_cons_self
    have hclosed : ¬exited.hasClosed c := by
      rw [show exited.hasClosed c = m.hasClosed c from rfl, h.alive.2]
      exact Bool.false_ne_true
    have hc : closed.worker.child = some c := h.child
    show (exited.onClose c).trace = _
    rw [Machine.onClose, if_pos ⟨hexited, hclosed⟩]
    dsimp only
    rw [if_pos hc]
    split <;> exact htrace
  refine ⟨e, earlier, ?_, hrejected⟩
  show ((m.step rt (.childExit c)).step rt (.childClose c)).trace = _
  rw [hexit]
  exact hclose

/-- The process answers. -/
theorem ended_taken (h : Written rt m₀ request n c m) {v : Json} (hreads : rt.parse (toVec v) = some v)
    (hanswered : rt.clock (m₀.ticks + 2) - rt.clock m₀.ticks < request.deadlineMs * 1000000) :
    Ended m₀.calls (validateWorkerResponse v request (toVec v).length) (m.take rt c (toVec v)) := by
  rw [Machine.take, hreads]
  simp only
  set delivered := ({ m with worker := { m.worker with input := [] } } : Machine).record
    (.delivered c v (toVec v).length)
  have hresponds : ({ m with worker := { m.worker with input := [] } } : Machine).deliver rt c v (toVec v).length
      = delivered.respond rt v (toVec v).length := if_pos h.ready
  have hpending : delivered.worker.pending = some ⟨m₀.calls, request, rt.clock m₀.ticks⟩ := h.pending
  have hticks : delivered.ticks = m₀.ticks + 2 := h.ticks
  rw [hresponds, Machine.respond, hpending]
  simp only
  cases hresponse : validateWorkerResponse v request (toVec v).length with
  | none => exact ended_fail .workerProtocol hpending
  | some response =>
    have hintime : ¬Client.overdue ⟨m₀.calls, request, rt.clock m₀.ticks⟩ (rt.clock delivered.ticks) = true := by
      rw [hticks, Client.overdue, decide_eq_true_eq]
      exact Int.not_le.2 hanswered
    simp only
    rw [if_neg hintime]
    exact ⟨_, _, rfl, rfl⟩

/-- A round writes the frame of a value. -/
theorem exists_written {σ φ : Type} {engine : Engine} {os : Worker.Os σ φ} {root : φ} {input frame rest : Bytes}
    {s s' : σ} (h : Worker.round engine os root input s = .wrote frame rest s') :
    ∃ v, writeFrame v = some frame := by
  rw [Worker.round] at h
  split at h
  · cases h
  · cases h
  · split at h
    · cases h
    · rename_i written hwritten
      obtain ⟨rfl, -, -⟩ := Worker.Round.wrote.inj h
      exact ⟨_, hwritten⟩
  · split at h
    · cases h
    · rename_i written hwritten
      obtain ⟨rfl, -, -⟩ := Worker.Round.wrote.inj h
      exact ⟨_, hwritten⟩

/-- **The process has gone once around its loop.** -/
theorem ended_reacted (hreads : ∀ v, rt.parse (toVec v) = some v) (hpieces : Whole visit.pieces)
    (h : Written rt m₀ request n c m)
    (hanswered : rt.clock (m₀.ticks + 2) - rt.clock m₀.ticks < request.deadlineMs * 1000000) :
    Ended m₀.calls (site.response visit rt request (requestFrame request n)) (site.reacted visit rt m) := by
  obtain ⟨earlier, htrace⟩ := h.trace
  have hreaction : site.reaction visit rt m = site.answering visit c (requestFrame request n) := by
    rw [Site.reaction, htrace]
  rw [Site.reacted, hreaction, Site.answering, Site.response]
  cases hround : Worker.round site.engine site.os site.root (requestFrame request n) visit.searching with
  | ends exit => exact ended_returned h
  | wrote frame rest s =>
    obtain ⟨v, hv⟩ := exists_written hround
    obtain ⟨hbody, rfl⟩ := Client.writeFrame_eq_some hv
    have hresponse : responseOf rt request (frameOf (toVec v))
        = validateWorkerResponse v request (toVec v).length := by
      have hdrop : (frameOf (toVec v)).drop 4 = toVec v := rfl
      rw [responseOf, hdrop, hreads v]
      rfl
    dsimp only
    rw [hresponse, run_handed hpieces hbody h.child h.heard]
    exact ended_taken h (hreads v) hanswered

/-- Nothing is left to be done behind a search that has ended. -/
theorem Ended.reacted {call : CallId} {response : Option WorkerResponse} (h : Ended call response m) :
    site.reacted visit rt m = m := by
  obtain ⟨e, earlier, htrace, hended⟩ := h
  have hnone : site.reaction visit rt m = [] := by
    rw [Site.reaction, htrace]
    cases response with
    | some response =>
      obtain rfl := hended
      rfl
    | none =>
      obtain ⟨code, rfl⟩ := hended
      rfl
  rw [Site.reacted, hnone]
  rfl

/-- **A search of a worker with nothing in flight**, whose process runs or is started for it, comes to what the
process makes of its frame. -/
theorem ended_search (hinv : Client.Inv m) (hreads : ∀ v, rt.parse (toVec v) = some v)
    (hpieces : Whole visit.pieces) (hidle : Idle site visit rt m)
    (hprompt : Prompt site visit rt m request.deadlineMs) :
    Ended m.calls
      (site.response visit rt request (requestFrame request (leftMs rt m request.deadlineMs)))
      (site.reacted visit rt (site.reacted visit rt (m.accept rt request none))) := by
  rcases hidle.started with hrunning | hstart
  · obtain ⟨c, hwritten⟩ := written_running hinv hrunning hprompt.sent
    have hended : Ended m.calls
        (site.response visit rt request (requestFrame request (leftMs rt m request.deadlineMs)))
        (site.reacted visit rt (m.accept rt request none)) :=
      ended_reacted hreads hpieces hwritten hprompt.answered
    -- the second time there is nothing to react to
    rw [hended.reacted]
    exact hended
  · obtain ⟨c, hwritten⟩ := written_starting hinv hreads hpieces hidle.opening hstart hprompt.sent
    exact ended_reacted hreads hpieces hwritten hprompt.answered

/-- How its promise has settled. -/
theorem Ended.resolved {call : CallId} {response : WorkerResponse} (h : Ended call (some response) m) :
    settlement m (.later call) = some (.resolved response) := by
  obtain ⟨e, earlier, htrace, rfl⟩ := h
  have hhead : Workspace.settlementOf call (.resolved call response) = some (.resolved response) := if_pos rfl
  show m.trace.findSome? (Workspace.settlementOf call) = some (.resolved response)
  rw [htrace, List.findSome?_cons, hhead]

theorem Ended.rejected {call : CallId} (h : Ended call none m) :
    ∃ code, settlement m (.later call) = some (.rejected code) := by
  obtain ⟨e, earlier, htrace, code, rfl⟩ := h
  have hhead : Workspace.settlementOf call (.rejected call code) = some (.rejected code) := if_pos rfl
  refine ⟨code, ?_⟩
  show m.trace.findSome? (Workspace.settlementOf call) = some (.rejected code)
  rw [htrace, List.findSome?_cons, hhead]

theorem search_refused (hidle : Idle site visit rt m) {input : List (List UInt16 × Json)}
    (h : acceptInput (requestId (m.worker.sequence + 1)) input = none) :
    m.search rt input none = (.rejected .invalidRequest, m) := by
  rw [Machine.search, hidle.disposed, hidle.pending, hidle.opening, hidle.retiring]
  simp [h]

theorem search_admitted (hidle : Idle site visit rt m) {input : List (List UInt16 × Json)}
    (h : acceptInput (requestId (m.worker.sequence + 1)) input = some request) :
    m.search rt input none = (.later m.calls, m.accept rt request none) := by
  rw [Machine.search, hidle.disposed, hidle.pending, hidle.opening, hidle.retiring]
  simp [h]

end Machines

/-! ## §5 — the registry. -/

/-- What a search comes to, by how its promise has settled. -/
def outcomeOf (host : Host) (s : Search) : Option Workspace.Settlement → Outcome
  | some (.resolved response) => .answered (Registry.answerOf host s response)
  | some (.rejected code) => .workerError code
  | _ => .threw

/-- A workspace that is registered, with a worker that has nothing in flight. -/
structure Serving {σ φ : Type} (site : Site σ φ) (visit : Visit σ) (workspaceId : JsString)
    (entry : Workspace.Entry) (slot : RootWorker) : Prop where
  accepting : (Registry.after site.host visit.events).closed = false
  registered : (Registry.after site.host visit.events).get workspaceId = some entry
  worker : (Registry.after site.host visit.events).workers[entry.worker]? = some slot
  idle : Idle site visit (site.host.runtime entry.worker) slot.machine

section Searching

variable {σ φ : Type} {site : Site σ φ} {visit : Visit σ} {entry : Workspace.Entry} {slot : RootWorker}
  {v : Json} {r : Workspace.SearchRequest}

/-- What a search hands to its worker. -/
abbrev inputOf (entry : Workspace.Entry) (r : Workspace.SearchRequest) : List (List UInt16 × Json) :=
  Registry.searchInput entry.registration.policy r

/-- The search that the registry keeps. -/
def searchOf (site : Site σ φ) (entry : Workspace.Entry) (slot : RootWorker) (r : Workspace.SearchRequest) : Search where
  entry := entry
  scope := Registry.searchScope entry.registration.policy r
  promise := (slot.machine.search (site.host.runtime entry.worker) (inputOf entry r) none).1

/-- Its worker when the process has answered. -/
def behind (site : Site σ φ) (visit : Visit σ) (entry : Workspace.Entry) (slot : RootWorker)
    (r : Workspace.SearchRequest) : Machine :=
  site.reacted visit (site.host.runtime entry.worker) (site.reacted visit (site.host.runtime entry.worker)
    (slot.machine.search (site.host.runtime entry.worker) (inputOf entry r) none).2)

/-- The registry when it has asked the worker. -/
def asking (site : Site σ φ) (visit : Visit σ) (entry : Workspace.Entry) (slot : RootWorker)
    (r : Workspace.SearchRequest) : Registry :=
  { (Registry.after site.host visit.events).drive site.host entry.worker (.search (inputOf entry r) none) with
    searches := (Registry.after site.host visit.events).searches ++ [searchOf site entry slot r] }

theorem registry_search (hserving : Serving site visit r.workspaceId entry slot)
    (hschema : Registry.searchSchema site.host v = some r)
    (hpolicy : entry.registration.scopePolicyId = r.scopePolicyId) :
    (Registry.after site.host visit.events).search site.host v none
      = (.ok (Registry.after site.host visit.events).searches.length, asking site visit entry slot r) := by
  have hfilter : ((Registry.after site.host visit.events).get r.workspaceId).filter
      (·.registration.scopePolicyId == r.scopePolicyId) = some entry := by
    rw [hserving.registered, Option.filter_some, if_pos (beq_iff_eq.2 hpolicy)]
  have hworker : (Registry.after site.host visit.events).searchWorker site.host entry.worker (inputOf entry r) none
      = ((searchOf site entry slot r).promise, (Registry.after site.host visit.events).drive site.host entry.worker
        (.search (inputOf entry r) none)) := by
    rw [Registry.searchWorker, hserving.worker]
    rfl
  rw [Registry.search, hserving.accepting, hschema]
  simp only [Bool.false_eq_true, if_false, hfilter]
  rw [hworker]
  rfl

/-- What the search is by the record of the registry. -/
theorem asks_of_serving (hserving : Serving site visit r.workspaceId entry slot)
    (hschema : Registry.searchSchema site.host v = some r)
    (hpolicy : entry.registration.scopePolicyId = r.scopePolicyId) :
    Registry.Asks site.host v none (Registry.after site.host visit.events)
      ((Registry.after site.host visit.events).step site.host (.search v none)) r entry := by
  have hstep : (Registry.after site.host visit.events).step site.host (.search v none)
      = asking site visit entry slot r := congrArg Prod.snd (registry_search hserving hschema hpolicy)
  obtain ⟨p, hfind, hp⟩ := Option.map_eq_some_iff.1 hserving.registered
  have hmem : p ∈ (Registry.after site.host visit.events).entries := List.mem_of_find?_eq_some hfind
  have hid : p.1 = r.workspaceId := beq_iff_eq.1
    (List.find?_some (p := fun q : JsString × Workspace.Entry => q.1 == r.workspaceId) hfind)
  have hnamed := (Registry.life_after site.host visit.events).named p hmem
  rw [hp] at hnamed
  rw [hstep]
  refine ⟨hschema, ?_, hnamed.trans hid, hpolicy, ?_, (searchOf site entry slot r).promise, rfl⟩
  · rw [← hid, ← hp]
    exact hmem
  · rw [Registry.searchWorker, hserving.worker]
    rfl

/-- What a search of a served workspace comes to. -/
theorem search_eq (hserving : Serving site visit r.workspaceId entry slot)
    (hschema : Registry.searchSchema site.host v = some r)
    (hpolicy : entry.registration.scopePolicyId = r.scopePolicyId) :
    site.search visit v = outcomeOf site.host (searchOf site entry slot r)
      (settlement (behind site visit entry slot r) (searchOf site entry slot r).promise) := by
  set before := Registry.after site.host visit.events with hbefore
  set s := searchOf site entry slot r
  set asked := asking site visit entry slot r
  have hslot : before.workers[entry.worker]? = some slot := hserving.worker
  have hasked : before.search site.host v none = (.ok before.searches.length, asked) :=
    registry_search hserving hschema hpolicy
  set done := site.turn visit entry.worker (site.turn visit entry.worker asked)
  -- a turn changes a worker, and no search
  have hkept : asked.searches[before.searches.length]? = some s := List.getElem?_concat_length
  have hdone : done.searches[before.searches.length]? = some s := hkept
  have hsettled : done.settled entry.worker s.promise = settlement (behind site visit entry slot r) s.promise := by
    have hworkers : done.workers[entry.worker]? = some { slot with machine := behind site visit entry slot r } := by
      show (((before.workers.modify entry.worker _).modify entry.worker _).modify entry.worker _)[entry.worker]? = _
      rw [List.getElem?_modify_eq, List.getElem?_modify_eq, List.getElem?_modify_eq, hslot]
      rfl
    rw [Registry.settled, hworkers]
    rfl
  have hunanswered : ¬s.answer.isSome = true := Bool.false_ne_true
  have hset : ∀ answer, (done.searches.set before.searches.length { s with answer := answer })[
      before.searches.length]? = some { s with answer := answer } := by
    intro answer
    have hlt : before.searches.length < done.searches.length := (List.getElem?_eq_some_iff.1 hdone).1
    rw [List.getElem?_set_self hlt]
  rw [Site.search, hasked]
  simp only
  rw [hkept]
  simp only
  show endOf (((done.onSearched site.host before.searches.length).searches[before.searches.length]?).bind
    Search.answer) = _
  rw [← hsettled, Registry.onSearched, hdone]
  simp only
  rw [if_neg hunanswered]
  have hpromise : done.settled s.entry.worker s.promise = done.settled entry.worker s.promise := rfl
  rw [hpromise]
  rcases done.settled entry.worker s.promise with _ | ⟨⟩ | response | code
  · simp only [hdone]
    rfl
  · simp only [hdone]
    rfl
  · simp only [hset]
    rfl
  · simp only [hset]
    rfl

/-- What is taken of the client's runtime: that it reads what `serde_json` writes, and is handed all of it. -/
structure Hearing (site : Site σ φ) (visit : Visit σ) (entry : Workspace.Entry) : Prop where
  reads : ∀ v, (site.host.runtime entry.worker).parse (toVec v) = some v
  pieces : Whole visit.pieces

/-- The worker when a search for a request has come to its end. -/
theorem ended_behind (hserving : Serving site visit r.workspaceId entry slot) (hhearing : Hearing site visit entry)
    {request : WorkerRequest}
    (haccept : acceptInput (requestId (slot.machine.worker.sequence + 1)) (inputOf entry r) = some request)
    (hprompt : Prompt site visit (site.host.runtime entry.worker) slot.machine request.deadlineMs) :
    (searchOf site entry slot r).promise = .later slot.machine.calls ∧
      Ended slot.machine.calls (site.response visit (site.host.runtime entry.worker) request
        (requestFrame request (leftMs (site.host.runtime entry.worker) slot.machine request.deadlineMs)))
        (behind site visit entry slot r) := by
  have hinv : Client.Inv slot.machine := by
    obtain ⟨lease, -, events, hmachine⟩ :=
      (Registry.sound_after site.host visit.events).workers _ _ hserving.worker
    rw [hmachine]
    exact Client.inv_after _ _ _
  have hadmitted := search_admitted hserving.idle haccept
  refine ⟨congrArg Prod.fst hadmitted, ?_⟩
  rw [behind, hadmitted]
  exact ended_search hinv hhearing.reads hhearing.pieces hserving.idle hprompt

/-- **A search is answered with what the process makes of it.** -/
theorem search_answered (hserving : Serving site visit r.workspaceId entry slot)
    (hhearing : Hearing site visit entry) (hschema : Registry.searchSchema site.host v = some r)
    (hpolicy : entry.registration.scopePolicyId = r.scopePolicyId) {request : WorkerRequest}
    (haccept : acceptInput (requestId (slot.machine.worker.sequence + 1)) (inputOf entry r) = some request)
    (hprompt : Prompt site visit (site.host.runtime entry.worker) slot.machine request.deadlineMs)
    {response : WorkerResponse}
    (hresponse : site.response visit (site.host.runtime entry.worker) request
      (requestFrame request (leftMs (site.host.runtime entry.worker) slot.machine request.deadlineMs))
        = some response) :
    site.search visit v = .answered (Registry.answerOf site.host (searchOf site entry slot r) response) := by
  obtain ⟨hpromise, hended⟩ := ended_behind hserving hhearing haccept hprompt
  rw [hresponse] at hended
  rw [search_eq hserving hschema hpolicy, hpromise, hended.resolved]
  rfl

/-- **An answer comes from the process.** -/
theorem exists_response {workspaceId : JsString} {a : Workspace.Answer}
    (hserving : Serving site visit workspaceId entry slot) (hhearing : Hearing site visit entry)
    (hasks : ∀ r, Registry.searchSchema site.host v = some r → r.workspaceId = workspaceId)
    (hprompt : ∀ r, Registry.searchSchema site.host v = some r → ∀ request,
      acceptInput (requestId (slot.machine.worker.sequence + 1)) (inputOf entry r) = some request →
        Prompt site visit (site.host.runtime entry.worker) slot.machine request.deadlineMs)
    (h : site.search visit v = .answered a) :
    ∃ r request response, Registry.searchSchema site.host v = some r ∧
      entry.registration.scopePolicyId = r.scopePolicyId ∧
      acceptInput (requestId (slot.machine.worker.sequence + 1)) (inputOf entry r) = some request ∧
      site.response visit (site.host.runtime entry.worker) request
        (requestFrame request (leftMs (site.host.runtime entry.worker) slot.machine request.deadlineMs))
          = some response ∧
      a = Registry.answerOf site.host (searchOf site entry slot r) response := by
  cases hschema : Registry.searchSchema site.host v with
  | none =>
    rw [Site.search, Registry.search, hserving.accepting, hschema] at h
    cases h
  | some r =>
    obtain rfl := hasks r hschema
    by_cases hpolicy : entry.registration.scopePolicyId = r.scopePolicyId
    · rw [search_eq hserving hschema hpolicy] at h
      cases haccept : acceptInput (requestId (slot.machine.worker.sequence + 1)) (inputOf entry r) with
      | none =>
        -- the client refuses the input
        have hrefused : (searchOf site entry slot r).promise = .rejected .invalidRequest :=
          congrArg Prod.fst (search_refused hserving.idle haccept)
        rw [hrefused] at h
        cases h
      | some request =>
        obtain ⟨hpromise, hended⟩ := ended_behind hserving hhearing haccept (hprompt r hschema request haccept)
        rw [hpromise] at h
        cases hresponse : site.response visit (site.host.runtime entry.worker) request
            (requestFrame request (leftMs (site.host.runtime entry.worker) slot.machine request.deadlineMs)) with
        | none =>
          -- the process returns, or the client does not take its reply
          rw [hresponse] at hended
          obtain ⟨code, hrejected⟩ := hended.rejected
          rw [hrejected] at h
          cases h
        | some response =>
          rw [hresponse] at hended
          rw [hended.resolved] at h
          exact ⟨r, request, response, rfl, hpolicy, haccept, hresponse, (Outcome.answered.inj h).symm⟩
    · have hfilter : ((Registry.after site.host visit.events).get r.workspaceId).filter
          (·.registration.scopePolicyId == r.scopePolicyId) = none := by
        rw [hserving.registered, Option.filter_some, if_neg (by simpa using hpolicy)]
      rw [Site.search, Registry.search, hserving.accepting, hschema] at h
      simp only [Bool.false_eq_true, if_false, hfilter] at h
      cases h

end Searching

end JevGrep.Service
