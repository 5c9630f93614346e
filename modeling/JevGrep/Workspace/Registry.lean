/-
# `JevGrep.Workspace.Registry` — the in-memory authority over registered roots.

`src/workspace/registry.ts`: `register` is an asynchronous function with five awaits and a `catch` that
awaits once more, `search` awaits its worker, `unregister` and `close` run at once. The model keeps every
unfinished call as a task with the await it stands at; an event starts a call, completes an await, or
is an entry into one of the workers. Workers are the machines of `JevGrep.Client.NativeWorker`, and a
lease is an open descriptor: the file it refers to, and so what `stat` reports, is fixed by its `open`.

SHA-256, `randomUUID`, the shape of a UUID and each worker's surroundings are parameters (`Host`).
-/
import JevGrep.Workspace.Policy

namespace JevGrep.Workspace

open JevGrep.Lib JevGrep.Lib.Schema JevGrep.Lib.Utf16 JevGrep.Lib.Transition
open JevGrep.Contracts (JsString)
open JevGrep.Worker (Bytes QueryKind)
open JevGrep.Client (WorkerScope WorkerRead WorkerRequest WorkerResponse WorkerErrorCode Machine
  Promised Runtime SignalId CallId objectOf queryKinds workerReadSchema kindJson)

/-! ## §1 — what the registry holds. -/

/-- `WorkspaceError.code`. -/
inductive WorkspaceErrorCode where
  | invalidRequest | workspaceUnavailable | outOfScope | registryClosed | registryFull
  deriving DecidableEq, Repr

/-- `Registration`. -/
structure Registration where
  workspaceId : JsString
  scopePolicyId : JsString
  policyHash : JsString
  policy : Policy
  deriving DecidableEq

/-- The number of a worker, and of a lease, in the order of their creation. -/
abbrev WorkerId := Nat

abbrev LeaseId := Nat

/-- `Entry`: the worker and the lease by their numbers. -/
structure Entry where
  registration : Registration
  worker : WorkerId
  rootLease : LeaseId
  deriving DecidableEq

/-- A root descriptor; `released` once its `close` was called. -/
structure Lease where
  dev : Nat
  ino : Nat
  isDirectory : Bool
  released : Bool := false

/-- `${before.dev}:${before.ino}`. -/
def Lease.identity (l : Lease) : JsString :=
  encode (Nat.toDigits 10 l.dev ++ ':' :: Nat.toDigits 10 l.ino)

/-- A worker that `register` created, and the lease whose `stat` gave its expected identity. -/
structure RootWorker where
  root : JsString
  lease : LeaseId
  machine : Machine

/-- What the registry takes from its host. -/
structure Host where
  sha256 : Bytes → Bytes
  /-- The n-th `randomUUID()`. -/
  uuid : Nat → JsString
  /-- The check of `z.string().uuid()`. -/
  isUuid : JsString → Bool
  runtime : WorkerId → Runtime

/-- The await a `register` call past its checks stands at, or how it ended. -/
inductive Phase where
  | resolving
  | leasing (canonical : JsString)
  | observing (canonical : JsString) (lease : LeaseId)
  | opening (lease : LeaseId) (worker : WorkerId) (promise : Promised)
  | validating (lease : LeaseId) (worker : WorkerId) (promise : Promised)
  /-- In the `catch`, at `await rootLease?.close()`. -/
  | failing (lease : Option LeaseId) (code : WorkspaceErrorCode)
  | published (entry : Entry)
  /-- Rejected; without a code when the closing of the lease threw. -/
  | rejected (code : Option WorkspaceErrorCode)

/-- A `register` call past the capacity check, with the compiled policy. -/
structure Task where
  policy : Policy
  phase : Phase

/-- `SearchSchema`. -/
structure SearchRequest where
  workspaceId : JsString
  scopePolicyId : JsString
  pattern : JsString
  kind : QueryKind
  caseSensitive : Bool
  maxMatches : Nat
  deadlineMs : Nat
  read : Option WorkerRead
  responseBytes : Nat
  narrow : Option Narrow

/-- What `search` returns. -/
structure Answer where
  workspaceId : JsString
  scopePolicyId : JsString
  policyHash : JsString
  effectivePolicyHash : JsString
  policy : Policy
  scope : WorkerScope
  result : WorkerResponse

/-- A `search` call past its checks: the entry it looked up, the promise of its worker, and its
answer. -/
structure Search where
  entry : Entry
  scope : WorkerScope
  promise : Promised
  answer : Option (Except WorkerErrorCode Answer) := none

/-- The fields of the registry, and the calls under way. -/
structure Registry where
  /-- The map, in the order of insertion. -/
  entries : List (JsString × Entry) := []
  closed : Bool := false
  registering : Nat := 0
  leases : List Lease := []
  workers : List RootWorker := []
  tasks : List Task := []
  searches : List Search := []
  /-- Calls of `randomUUID` so far. -/
  uuids : Nat := 0

/-! ## §2 — small steps on the registry. -/

/-- How a promise of a worker settled. -/
inductive Settlement where
  | opened
  | resolved (response : WorkerResponse)
  | rejected (code : WorkerErrorCode)

/-- The settlement that an entry of a worker's trace is for a call. -/
def settlementOf (call : CallId) : Client.Entry → Option Settlement
  | .opened k => if k = call then some .opened else none
  | .resolved k response => if k = call then some (.resolved response) else none
  | .rejected k code => if k = call then some (.rejected code) else none
  | _ => none

/-- How a promise has settled by now. -/
def settlement (m : Machine) : Promised → Option Settlement
  | .rejected code => some (.rejected code)
  | .resolved => some .opened
  | .later call => m.trace.findSome? (settlementOf call)

namespace Registry

/-- One entry into a worker. -/
def drive (host : Host) (w : WorkerId) (e : Client.Event) (r : Registry) : Registry :=
  { r with workers := r.workers.modify w fun slot =>
      { slot with machine := slot.machine.step (host.runtime w) e } }

/-- `rootLease.close()`. -/
def release (l : LeaseId) (r : Registry) : Registry :=
  { r with leases := r.leases.modify l fun lease => { lease with released := true } }

/-- Call `t` has come to a phase. -/
def setPhase (t : Nat) (phase : Phase) (r : Registry) : Registry :=
  { r with tasks := r.tasks.modify t fun task => { task with phase := phase } }

/-- `worker.search(…)`, and the promise it returns. -/
def searchWorker (host : Host) (w : WorkerId) (input : List (List UInt16 × Json))
    (signal : Option SignalId) (r : Registry) : Promised × Registry :=
  match r.workers[w]? with
  | none => (.rejected .workerClosed, r)
  | some slot =>
      ((slot.machine.search (host.runtime w) input signal).1, r.drive host w (.search input signal))

/-- `worker?.close()`. -/
def closeWorker (host : Host) : Option WorkerId → Registry → Registry
  | none, r => r
  | some w, r => r.drive host w .close

/-- `rootLease?.close()`. -/
def closeLease : Option LeaseId → Registry → Registry
  | none, r => r
  | some l, r => r.release l

/-- The `catch` of `register` up to its `await`. -/
def abandon (host : Host) (t : Nat) (lease : Option LeaseId) (worker : Option WorkerId)
    (code : WorkspaceErrorCode) (r : Registry) : Registry :=
  ((r.closeWorker host worker).closeLease lease).setPhase t (.failing lease code)

/-- The settlement of a promise of worker `w`. -/
def settled (w : WorkerId) (promise : Promised) (r : Registry) : Option Settlement :=
  r.workers[w]?.bind fun slot => settlement slot.machine promise

/-- `this.#entries.get(workspaceId)`. -/
def get (workspaceId : JsString) (r : Registry) : Option Entry :=
  (r.entries.find? (·.1 == workspaceId)).map (·.2)

/-- `this.#entries.set(workspaceId, entry)`: an existing key keeps its place. -/
def set (workspaceId : JsString) (entry : Entry) (r : Registry) : Registry :=
  { r with entries :=
      if r.entries.any (·.1 == workspaceId) then
        r.entries.map fun p => if p.1 == workspaceId then (p.1, entry) else p
      else r.entries ++ [(workspaceId, entry)] }

/-! ## §3 — `register`. -/

/-- `isAbsolute(root)` without a NUL, as `register` and the constructor of `NativeWorker` ask. -/
def isRoot (root : JsString) : Bool :=
  root.head? == some (unit '/') && !root.contains (unit '\x00')

/-- `register` up to its first `await`. -/
def register (absoluteRoot : Json) (policyInput : Option Json) (r : Registry) :
    Except WorkspaceErrorCode Nat × Registry :=
  if r.closed then (.error .registryClosed, r)
  else if ((string absoluteRoot).filter isRoot).isNone then (.error .invalidRequest, r)
  else
    match createPolicy (policyInput.getD (.obj [])) with
    | none => (.error .invalidRequest, r)
    | some policy =>
        if r.entries.length + r.registering ≥ 32 then (.error .registryFull, r)
        else
          (.ok r.tasks.length,
            { r with
              registering := r.registering + 1
              tasks := r.tasks ++ [{ policy := policy, phase := .resolving }] })

/-- `realpath` has returned. -/
def onRealpath (host : Host) (t : Nat) (canonical : Option JsString) (r : Registry) : Registry :=
  match (r.tasks[t]?).map Task.phase, canonical with
  | some .resolving, some canonical => r.setPhase t (.leasing canonical)
  | some .resolving, none => r.abandon host t none none .workspaceUnavailable
  | _, _ => r

/-- `open` has returned. -/
def onOpen (host : Host) (t : Nat) (lease : Option Lease) (r : Registry) : Registry :=
  match (r.tasks[t]?).map Task.phase, lease with
  | some (.leasing canonical), some lease =>
      let fresh : Lease := { lease with released := false }
      ({ r with leases := r.leases ++ [fresh] } : Registry).setPhase t
        (.observing canonical r.leases.length)
  | some (.leasing _), none => r.abandon host t none none .workspaceUnavailable
  | _, _ => r

/-- `stat` has returned; the worker is created and asked to open its root. -/
def onStat (host : Host) (t : Nat) (ok : Bool) (r : Registry) : Registry :=
  match (r.tasks[t]?).map Task.phase with
  | some (.observing canonical l) =>
      match r.leases[l]? with
      | none => r
      | some lease =>
          if !ok || !lease.isDirectory then
            r.abandon host t (some l) none .workspaceUnavailable
          else if r.closed then r.abandon host t (some l) none .registryClosed
          else if !isRoot canonical then r.abandon host t (some l) none .workspaceUnavailable
          else
            let w := r.workers.length
            let machine := Machine.create (some lease.identity)
            let slot : RootWorker := { root := canonical, lease := l, machine := machine }
            (({ r with workers := r.workers ++ [slot] } : Registry).drive host w .openRoot).setPhase t
              (.opening l w machine.openRoot.1)
  | _ => r

/-- The input of the scope validation. -/
def validationInput (policy : Policy) : List (List UInt16 × Json) :=
  [(units "pattern", .str (units "scope-validation")), (units "validateScopeOnly", .bool true),
    (units "maxFileBytes", .nat policy.maxFileBytes),
    (units "scope", (narrowPolicy policy Narrow.none).json)]

/-- The end of the `try`: the registration enters the map. -/
def publish (host : Host) (t : Nat) (policy : Policy) (l : LeaseId) (w : WorkerId)
    (r : Registry) : Registry :=
  let registration : Registration := {
    workspaceId := host.uuid r.uuids
    scopePolicyId := host.uuid (r.uuids + 1)
    policyHash := policyHash host.sha256 policy
    policy := policy }
  let entry : Entry := { registration, worker := w, rootLease := l }
  (({ r with uuids := r.uuids + 2, registering := r.registering - 1 } : Registry).set
    registration.workspaceId entry).setPhase t (.published entry)

/-- `register` goes on behind a settled promise of its worker. -/
def resume (host : Host) (t : Nat) (r : Registry) : Registry :=
  match r.tasks[t]? with
  | none => r
  | some task =>
      match task.phase with
      | .opening l w promise =>
          match r.settled w promise with
          | none => r
          | some .opened =>
              let (promise, r) := r.searchWorker host w (validationInput task.policy) none
              r.setPhase t (.validating l w promise)
          | some _ => r.abandon host t (some l) (some w) .workspaceUnavailable
      | .validating l w promise =>
          match r.settled w promise with
          | none => r
          | some (.resolved (.ok _)) =>
              if r.closed then r.abandon host t (some l) (some w) .registryClosed
              else r.publish host t task.policy l w
          | some (.resolved (.error ..)) => r.abandon host t (some l) (some w) .invalidRequest
          | some _ => r.abandon host t (some l) (some w) .workspaceUnavailable
      | _ => r

/-- `await rootLease?.close()` has returned, and `finally` runs. -/
def onLeaseClosed (t : Nat) (ok : Bool) (r : Registry) : Registry :=
  match (r.tasks[t]?).map Task.phase with
  | some (.failing lease code) =>
      ({ r with registering := r.registering - 1 } : Registry).setPhase t
        (.rejected (if ok || lease.isNone then some code else none))
  | _ => r

/-! ## §4 — `search`, `unregister`, `close`. -/

/-- `SearchSchema`. -/
def searchSchema (host : Host) (v : Json) : Option SearchRequest := do
  let o ← strictObject ["workspaceId", "scopePolicyId", "pattern", "kind", "caseSensitive",
    "maxMatches", "deadlineMs", "read", "responseBytes", "narrow"] v
  let uuid (v : Json) : Option JsString := (string v).filter host.isUuid
  let workspaceId ← required o "workspaceId" uuid
  let scopePolicyId ← required o "scopePolicyId" uuid
  let pattern ← required o "pattern" string
  let kind ← withDefault o "kind" .literal (choice queryKinds)
  let caseSensitive ← withDefault o "caseSensitive" true bool
  let maxMatches ← withDefault o "maxMatches" 100 (int 1 1000)
  let deadlineMs ← withDefault o "deadlineMs" 10000 (int 1 30000)
  let read ← optional o "read" workerReadSchema
  let responseBytes ← withDefault o "responseBytes" 65536 (int 2048 1048576)
  let narrow ← optional o "narrow" narrowSchema
  return {
    workspaceId, scopePolicyId, pattern, kind, caseSensitive, maxMatches, deadlineMs, read,
    responseBytes, narrow }

/-- The scope of a search: the registered policy under the request's narrowing. -/
def searchScope (policy : Policy) (request : SearchRequest) : WorkerScope :=
  narrowPolicy policy (request.narrow.getD Narrow.none)

/-- The input `search` hands to its worker. -/
def searchInput (policy : Policy) (request : SearchRequest) : List (List UInt16 × Json) :=
  [(units "pattern", .str request.pattern), (units "kind", kindJson request.kind),
    (units "caseSensitive", .bool request.caseSensitive),
    (units "maxMatches", .nat request.maxMatches), (units "deadlineMs", .nat request.deadlineMs),
    (units "responseBytes", .nat request.responseBytes),
    (units "maxFileBytes", .nat policy.maxFileBytes)]
    ++ (request.read.map fun read => (units "read", read.json)).toList
    ++ [(units "scope", (searchScope policy request).json)]

/-- `search` up to its `await`. -/
def search (host : Host) (input : Json) (signal : Option SignalId) (r : Registry) :
    Except WorkspaceErrorCode Nat × Registry :=
  if r.closed then (.error .registryClosed, r)
  else
    match searchSchema host input with
    | none => (.error .invalidRequest, r)
    | some request =>
        match (r.get request.workspaceId).filter
            (·.registration.scopePolicyId == request.scopePolicyId) with
        | none => (.error .outOfScope, r)
        | some entry =>
            let policy := entry.registration.policy
            let (promise, r') :=
              r.searchWorker host entry.worker (searchInput policy request) signal
            (.ok r.searches.length,
              { r' with searches :=
                  r'.searches ++ [{ entry, scope := searchScope policy request, promise }] })

/-- What `search` makes of the worker's response. -/
def answerOf (host : Host) (s : Search) (result : WorkerResponse) : Answer :=
  let registration := s.entry.registration
  { workspaceId := registration.workspaceId
    scopePolicyId := registration.scopePolicyId
    policyHash := registration.policyHash
    effectivePolicyHash := effectivePolicyHash host.sha256 registration.policyHash s.scope
    policy := registration.policy
    scope := s.scope
    result }

/-- `search` goes on behind the settled promise of its worker. -/
def onSearched (host : Host) (n : Nat) (r : Registry) : Registry :=
  match r.searches[n]? with
  | none => r
  | some s =>
      if s.answer.isSome then r
      else
        match r.settled s.entry.worker s.promise with
        | some (.resolved response) =>
            { r with searches :=
                r.searches.set n { s with answer := some (.ok (answerOf host s response)) } }
        | some (.rejected code) =>
            { r with searches := r.searches.set n { s with answer := some (.error code) } }
        | _ => r

/-- An entry's worker and lease are closed. -/
def shut (host : Host) (e : Entry) (r : Registry) : Registry :=
  (r.drive host e.worker .close).release e.rootLease

/-- `unregister`. -/
def unregister (host : Host) (workspaceId : JsString) (r : Registry) :
    Except WorkspaceErrorCode Unit × Registry :=
  match r.get workspaceId with
  | none => (.error .outOfScope, r)
  | some e =>
      let r := r.shut host e
      (.ok (), { r with entries := r.entries.filter (·.1 != workspaceId) })

/-- `close`. -/
def close (host : Host) (r : Registry) : Registry :=
  let r := r.entries.foldl (fun r p => r.shut host p.2) { r with closed := true }
  { r with entries := [] }

end Registry

/-! ## §5 — runs. -/

/-- The entries into a worker that are not calls: its calls come from the registry alone. -/
def isCall : Client.Event → Bool
  | .search .. | .openRoot | .close => true
  | _ => false

/-- One entry into the registry: a call, or the end of an `await`. -/
inductive Event where
  | register (absoluteRoot : Json) (policyInput : Option Json)
  | realpath (task : Nat) (canonical : Option JsString)
  | opened (task : Nat) (lease : Option Lease)
  | stat (task : Nat) (ok : Bool)
  | resume (task : Nat)
  | leaseClosed (task : Nat) (ok : Bool)
  | worker (w : WorkerId) (e : Client.Event)
  | search (input : Json) (signal : Option SignalId)
  | searched (n : Nat)
  | unregister (workspaceId : JsString)
  | close

/-- One entry into the registry. -/
def Registry.step (host : Host) : Event → Registry → Registry
  | .register absoluteRoot policyInput, r => (r.register absoluteRoot policyInput).2
  | .realpath t canonical, r => r.onRealpath host t canonical
  | .opened t lease, r => r.onOpen host t lease
  | .stat t ok, r => r.onStat host t ok
  | .resume t, r => r.resume host t
  | .leaseClosed t ok, r => r.onLeaseClosed t ok
  | .worker w e, r => if isCall e then r else r.drive host w e
  | .search input signal, r => (r.search host input signal).2
  | .searched n, r => r.onSearched host n
  | .unregister workspaceId, r => (r.unregister host workspaceId).2
  | .close, r => r.close host

/-- The registry behind a run. -/
def Registry.after (host : Host) (events : List Event) : Registry :=
  run (Registry.step host) {} events

end JevGrep.Workspace
