/-
# `JevGrep.Client.NativeWorker` — the serial worker client as an event machine.

`src/worker/client.ts`: one object with a child process, at most one call in flight, and handlers that
run to completion. `NativeWorker` holds the object's fields; `Machine` adds what the JavaScript runtime
and the operating system keep around it: armed timers, registered abort listeners, aborted signals and
the trace of everything that happened, newest first. An event is one entry into the object: a call of
`search`, `open` or `close`, an abort, a timer, a stdout chunk, an error, exit or close of a child.

`performance.now()` may read anything (`Runtime.clock`), a chunk holds arbitrary bytes, and decoding and
`JSON.parse` of a frame are an arbitrary partial function (`Runtime.parse`).
-/
import JevGrep.Lib.Transition
import JevGrep.Lib.Utf8
import JevGrep.Client.Protocol

namespace JevGrep.Client

open JevGrep.Lib JevGrep.Lib.Schema JevGrep.Lib.Transition
open JevGrep.Contracts (JsString)
open JevGrep.Worker (Bytes FRAME_CAP)

/-! ## §1 — the object and its surroundings. -/

/-- `WorkerError.code`. -/
inductive WorkerErrorCode where
  | cancelled | deadline | workerExit | workerProtocol | workerBusy | workerClosed
  | workerRestarting | rootChanged | invalidRequest
  deriving DecidableEq, Repr

/-- The n-th process the worker started. -/
abbrev ChildId := Nat

/-- The n-th promise the worker handed out. -/
abbrev CallId := Nat

/-- The number of an `AbortSignal`. -/
abbrev SignalId := Nat

/-- A search in flight: its promise, timer and abort listener are known by `call`. -/
structure Pending where
  call : CallId
  request : WorkerRequest
  startedAt : Int

/-- The fields of `NativeWorker`. -/
structure NativeWorker where
  child : Option ChildId := none
  pending : Option Pending := none
  ready : Bool := false
  disposed : Bool := false
  retiring : Bool := false
  input : Bytes := []
  sequence : Nat := 0
  rootIdentity : Option JsString := none
  /-- The promise and the timer of `open()`. -/
  opening : Option CallId := none

/-- What a trace records. -/
inductive Entry where
  | accepted (call : CallId) (request : WorkerRequest)
  | opening (call : CallId)
  | spawned (c : ChildId)
  /-- A whole frame of `c` was decoded while `c` was current. -/
  | delivered (c : ChildId) (message : Json) (size : Nat)
  | greeted (c : ChildId) (identity : JsString)
  | wrote (c : ChildId) (call : CallId) (frame : Bytes)
  | killed (c : ChildId)
  | exited (c : ChildId)
  | closed (c : ChildId)
  | opened (call : CallId)
  | resolved (call : CallId) (response : WorkerResponse)
  | rejected (call : CallId) (code : WorkerErrorCode)
  | disposed

/-- A worker with its trace and the numbers it has given away. -/
structure Machine where
  worker : NativeWorker
  trace : List Entry := []
  /-- The processes started so far; the next one gets this number. -/
  children : Nat := 0
  /-- The promises handed out so far; the next one gets this number. -/
  calls : Nat := 0
  timers : List CallId := []
  listeners : List (CallId × SignalId) := []
  aborted : List SignalId := []
  /-- Readings of the clock so far. -/
  ticks : Nat := 0
  /-- Children with the `once('close')` listener of `fail`. -/
  reapers : List ChildId := []

/-- What the model leaves open: the n-th reading of `performance.now()` in nanoseconds, the pid of each
child, and the decoding of a frame by `TextDecoder` and `JSON.parse`. -/
structure Runtime where
  clock : Nat → Int
  pid : ChildId → Option Nat
  parse : Bytes → Option Json

/-- `new NativeWorker(root, binary, expectedRootIdentity)`. -/
def Machine.create (expectedRootIdentity : Option JsString) : Machine where
  worker := { rootIdentity := expectedRootIdentity }

namespace Machine

/-- The latest entry comes first. -/
def record (m : Machine) (e : Entry) : Machine := { m with trace := e :: m.trace }

@[simp] theorem record_worker (m : Machine) (e : Entry) : (m.record e).worker = m.worker := rfl

@[simp] theorem record_trace (m : Machine) (e : Entry) : (m.record e).trace = e :: m.trace := rfl

/-- The clock has been read once more. -/
def tick (m : Machine) : Machine := { m with ticks := m.ticks + 1 }

@[simp] theorem tick_worker (m : Machine) : m.tick.worker = m.worker := rfl

@[simp] theorem tick_trace (m : Machine) : m.tick.trace = m.trace := rfl

/-- `child.exitCode !== null || child.signalCode !== null`. -/
def hasExited (m : Machine) (c : ChildId) : Bool :=
  m.trace.any fun | .exited d => d == c | _ => false

/-- Whether the child has said `close`. -/
def hasClosed (m : Machine) (c : ChildId) : Bool :=
  m.trace.any fun | .closed d => d == c | _ => false

/-- `clearTimeout` and `removeEventListener` for a call. -/
def disarm (m : Machine) (call : CallId) : Machine :=
  { m with
    timers := m.timers.filter (· != call)
    listeners := m.listeners.filter (·.1 != call) }

@[simp] theorem disarm_worker (m : Machine) (call : CallId) : (m.disarm call).worker = m.worker := rfl

@[simp] theorem disarm_trace (m : Machine) (call : CallId) : (m.disarm call).trace = m.trace := rfl

/-- `this.opening = undefined` and what belongs to the promise. -/
def dropOpening (m : Machine) (call : CallId) : Machine :=
  ({ m with worker := { m.worker with opening := none } } : Machine).disarm call

@[simp] theorem dropOpening_worker (m : Machine) (call : CallId) :
    (m.dropOpening call).worker = { m.worker with opening := none } := rfl

@[simp] theorem dropOpening_trace (m : Machine) (call : CallId) :
    (m.dropOpening call).trace = m.trace := rfl

/-- `this.pending = undefined` and what belongs to the promise. -/
def dropPending (m : Machine) (call : CallId) : Machine :=
  ({ m with worker := { m.worker with pending := none } } : Machine).disarm call

@[simp] theorem dropPending_worker (m : Machine) (call : CallId) :
    (m.dropPending call).worker = { m.worker with pending := none } := rfl

@[simp] theorem dropPending_trace (m : Machine) (call : CallId) :
    (m.dropPending call).trace = m.trace := rfl

/-! ## §2 — `fail`, `start`, `send`. -/

/-- The kill in `fail`: only a child that has not exited yet. -/
def retire (c : ChildId) (m : Machine) : Machine :=
  if m.hasExited c then m
  else
    { m with
      worker := { m.worker with retiring := true }
      reapers := c :: m.reapers
      trace := .killed c :: m.trace }

/-- The first half of `fail`: the child and its buffer are dropped and the child is killed. -/
def dropChild (m : Machine) : Machine :=
  let dropped :=
    { m with worker := { m.worker with child := none, ready := false, input := [] } }
  match m.worker.child with
  | none => dropped
  | some c => dropped.retire c

/-- `if (opening) { clearTimeout(opening.timer); opening.reject(…); }`. -/
def rejectOpening (code : WorkerErrorCode) (m : Machine) : Machine :=
  match m.worker.opening with
  | none => m
  | some call => (m.dropOpening call).record (.rejected call code)

/-- `if (pending) { clearTimeout(pending.timer); pending.cleanup(); pending.reject(…); }`. -/
def rejectPending (code : WorkerErrorCode) (m : Machine) : Machine :=
  match m.worker.pending with
  | none => m
  | some p => (m.dropPending p.call).record (.rejected p.call code)

/-- `fail`. -/
def fail (code : WorkerErrorCode) (m : Machine) : Machine :=
  ((m.dropChild).rejectOpening code).rejectPending code

/-- `start`. -/
def start (m : Machine) : Machine :=
  { m with
    worker := { m.worker with child := some m.children, ready := false, input := [] }
    children := m.children + 1
    trace := .spawned m.children :: m.trace }

end Machine

/-- `Math.floor(deadlineMs - (now - startedAt))`. -/
def remainingMs (p : Pending) (now : Int) : Int :=
  (p.request.deadlineMs * 1000000 - (now - p.startedAt)) / 1000000

/-- `performance.now() - startedAt >= deadlineMs`. -/
def overdue (p : Pending) (now : Int) : Bool := p.request.deadlineMs * 1000000 ≤ now - p.startedAt

/-- A JSON object without the members that are `undefined`. -/
def objectOf (members : List (String × Option Json)) : Json :=
  .obj (members.filterMap fun m => m.2.map (units m.1, ·))

/-- The parts of a request as `JSON.stringify` has them. -/
def rangeJson (r : JevGrep.Worker.Range) : Json :=
  objectOf [("start", some (.nat r.start)), ("end", some (.nat r.stop))]

/-- A list of strings, as `JSON.stringify` has it. -/
def strings (items : List JsString) : Json := .arr (items.map .str)

/-- The literals of `kind`. -/
def kindJson : JevGrep.Worker.QueryKind → Json
  | .literal => .str (units "literal")
  | .regex => .str (units "regex")

/-- A scope, in the order of its schema. -/
def WorkerScope.json (s : WorkerScope) : Json :=
  objectOf [("includeGroups", some (.arr (s.includeGroups.map strings))),
    ("exclude", some (strings s.exclude)), ("hidden", some (.bool s.hidden)),
    ("respectIgnore", some (.bool s.respectIgnore))]

/-- A read, without the digest where there is none. -/
def WorkerRead.json (r : WorkerRead) : Json :=
  objectOf [("path", some (.str r.path)), ("range", some (rangeJson r.range)),
    ("expectedFileSha256", r.expectedFileSha256.map .str)]

/-- `{ ...pending.request, deadlineMs: remaining }`. -/
def WorkerRequest.json (r : WorkerRequest) (remaining : Nat) : Json :=
  objectOf [("pattern", some (.str r.pattern)), ("kind", some (kindJson r.kind)),
    ("caseSensitive", some (.bool r.caseSensitive)), ("maxMatches", some (.nat r.maxMatches)),
    ("maxFileBytes", some (.nat r.maxFileBytes)), ("responseBytes", some (.nat r.responseBytes)),
    ("deadlineMs", some (.nat remaining)), ("scope", r.scope.map WorkerScope.json),
    ("validateScopeOnly", r.validateScopeOnly.map .bool), ("read", r.read.map WorkerRead.json),
    ("maxEntries", some (.nat r.maxEntries)), ("maxDepth", some (.nat r.maxDepth)),
    ("v", some (.nat 1)), ("id", some (.str r.id))]

/-- `Buffer.from(JSON.stringify(…))`. -/
def requestBody (r : WorkerRequest) (remaining : Nat) : Bytes :=
  Utf8.encode (Json.print (r.json remaining))

/-- `writeUInt32BE`. -/
def be32 (n : Nat) : Bytes :=
  [UInt8.ofNat (n / 16777216), UInt8.ofNat (n / 65536), UInt8.ofNat (n / 256), UInt8.ofNat n]

/-- `readUInt32BE(0)`. -/
def readBe32 : Bytes → Nat
  | a :: b :: c :: d :: _ =>
      a.toNat * 16777216 + b.toNat * 65536 + c.toNat * 256 + d.toNat
  | _ => 0

/-- The body behind its length. -/
def requestFrame (r : WorkerRequest) (remaining : Nat) : Bytes :=
  be32 (requestBody r remaining).length ++ requestBody r remaining

namespace Machine

/-- `send`. -/
def send (rt : Runtime) (m : Machine) : Machine :=
  match m.worker.pending, m.worker.child with
  | some p, some c =>
      let remaining := remainingMs p (rt.clock m.ticks)
      if remaining ≤ 0 then m.tick.fail .deadline
      else m.tick.record (.wrote c p.call (requestFrame p.request remaining.toNat))
  | _, _ => m

/-! ## §3 — the stdout handler. -/

/-- `this.rootIdentity = identity; this.ready = true`. -/
def adopt (identity : JsString) (m : Machine) : Machine :=
  { m with worker := { m.worker with rootIdentity := some identity, ready := true } }

@[simp] theorem adopt_worker (identity : JsString) (m : Machine) :
    (m.adopt identity).worker
      = { m.worker with rootIdentity := some identity, ready := true } := rfl

@[simp] theorem adopt_trace (identity : JsString) (m : Machine) :
    (m.adopt identity).trace = m.trace := rfl

/-- The opening of an adopted child resolves. -/
def resolveOpening (m : Machine) : Machine :=
  match m.worker.opening with
  | none => m
  | some call => (m.dropOpening call).record (.opened call)

/-- The hello branch of the data loop; `false` leaves the loop. -/
def greet (rt : Runtime) (c : ChildId) (message : Json) (m : Machine) : Machine × Bool :=
  match workerReadySchema message with
  | none => (m.fail .workerProtocol, false)
  | some hello =>
      if some hello.pid ≠ rt.pid c then (m.fail .workerProtocol, false)
      else
        let identity := hello.rootDev ++ units ":" ++ hello.rootIno
        let m := m.record (.greeted c identity)
        if m.worker.rootIdentity ≠ none ∧ m.worker.rootIdentity ≠ some identity then
          (m.fail .rootChanged, false)
        else ((m.adopt identity).resolveOpening.send rt, true)

/-- The response branch of the data loop. -/
def respond (rt : Runtime) (message : Json) (size : Nat) (m : Machine) : Machine × Bool :=
  match m.worker.pending with
  | none => (m.fail .workerProtocol, false)
  | some p =>
      match validateWorkerResponse message p.request size with
      | none => (m.fail .workerProtocol, false)
      | some response =>
          if overdue p (rt.clock m.ticks) then (m.tick.fail .deadline, false)
          else ((m.tick.dropPending p.call).record (.resolved p.call response), true)

/-- One decoded frame. -/
def deliver (rt : Runtime) (c : ChildId) (message : Json) (size : Nat) (m : Machine) :
    Machine × Bool :=
  let m := m.record (.delivered c message size)
  if m.worker.ready then m.respond rt message size else m.greet rt c message

/-- `while (this.input.length >= 4)`; every round takes a frame off the buffer, so the buffer's length
is fuel enough. -/
def drain (rt : Runtime) (c : ChildId) : Nat → Machine → Machine
  | 0, m => m
  | fuel + 1, m =>
      if m.worker.input.length < 4 then m
      else
        let size := readBe32 m.worker.input
        if size = 0 ∨ size > FRAME_CAP then m.fail .workerProtocol
        else if m.worker.input.length < size + 4 then m
        else
          let frame := (m.worker.input.drop 4).take size
          let m := { m with worker := { m.worker with input := m.worker.input.drop (size + 4) } }
          match rt.parse frame with
          | none => m.fail .workerProtocol
          | some message =>
              let (m, continues) := m.deliver rt c message size
              if continues then m.drain rt c fuel else m

/-- `child.stdout.on('data', …)`. -/
def onData (rt : Runtime) (c : ChildId) (chunk : Bytes) (m : Machine) : Machine :=
  if m.worker.child ≠ some c then m
  else if m.worker.input.length + chunk.length > FRAME_CAP + 4 then m.fail .workerProtocol
  else
    let m := { m with worker := { m.worker with input := m.worker.input ++ chunk } }
    m.drain rt c m.worker.input.length

end Machine

/-! ## §4 — calls and the other events. -/

/-- The defaults `search` spreads its input over. -/
def searchDefaults : List (List UInt16 × Json) :=
  [(units "kind", .str (units "literal")), (units "caseSensitive", .bool true),
    (units "maxMatches", .nat 100), (units "maxFileBytes", .nat 1048576),
    (units "responseBytes", .nat 65536), (units "deadlineMs", .nat 10000),
    (units "maxEntries", .nat 100000), (units "maxDepth", .nat 64)]

/-- The request of an input that passes the checks of `search`. -/
def acceptInput (id : JsString) (input : List (List UInt16 × Json)) : Option WorkerRequest :=
  (workerRequestSchema id (.obj (searchDefaults ++ input))).filter fun r =>
    Utf16.isWellFormed r.pattern && Utf16.byteLength r.pattern ≤ 8192
      && !r.pattern.any fun u => u.toNat == 0x0d || u.toNat == 0x0a || u.toNat == 0

/-- `q-${n}`. -/
def requestId (n : Nat) : JsString := Utf16.encode ("q-".toList ++ Nat.toDigits 10 n)

/-- What a call returns: a settled promise, or one that the trace settles later. -/
inductive Promised where
  | rejected (code : WorkerErrorCode)
  | resolved
  | later (call : CallId)

namespace Machine

/-- A search past its checks. -/
def accept (rt : Runtime) (request : WorkerRequest) (signal : Option SignalId) (m : Machine) :
    Machine :=
  let call := m.calls
  let m :=
    { m with
      worker := { m.worker with
        sequence := m.worker.sequence + 1
        pending := some { call := call, request := request, startedAt := rt.clock m.ticks } }
      ticks := m.ticks + 1
      calls := m.calls + 1
      timers := call :: m.timers
      listeners := (signal.map (call, ·)).toList ++ m.listeners
      trace := .accepted call request :: m.trace }
  if signal.any (m.aborted.contains ·) then m.fail .cancelled
  else if m.worker.child = none then m.start
  else if m.worker.ready then m.send rt
  else m

/-- `search`. -/
def search (rt : Runtime) (input : List (List UInt16 × Json)) (signal : Option SignalId)
    (m : Machine) : Promised × Machine :=
  if m.worker.disposed then (.rejected .workerClosed, m)
  else if m.worker.pending.isSome || m.worker.opening.isSome then (.rejected .workerBusy, m)
  else if m.worker.retiring then (.rejected .workerRestarting, m)
  else if signal.any (m.aborted.contains ·) then (.rejected .cancelled, m)
  else
    match acceptInput (requestId (m.worker.sequence + 1)) input with
    | none => (.rejected .invalidRequest, m)
    | some request => (.later m.calls, m.accept rt request signal)

/-- `open`. -/
def openRoot (m : Machine) : Promised × Machine :=
  if m.worker.disposed then (.rejected .workerClosed, m)
  else if m.worker.ready then (.resolved, m)
  else if m.worker.opening.isSome || m.worker.pending.isSome then (.rejected .workerBusy, m)
  else if m.worker.retiring then (.rejected .workerRestarting, m)
  else
    let call := m.calls
    let m :=
      { m with
        worker := { m.worker with opening := some call }
        calls := m.calls + 1
        timers := call :: m.timers
        trace := .opening call :: m.trace }
    (.later call, m.start)

/-- `close`. -/
def close (m : Machine) : Machine :=
  (({ m with worker := { m.worker with disposed := true } } : Machine).record .disposed).fail
    .workerClosed

/-- A timer that is still armed fires once. -/
def onTimer (call : CallId) (m : Machine) : Machine :=
  if call ∈ m.timers then
    ({ m with timers := m.timers.filter (· != call) } : Machine).fail .deadline
  else m

/-- A signal aborts once and runs the listeners registered on it that are still there. -/
def onAbort (signal : SignalId) (m : Machine) : Machine :=
  if signal ∈ m.aborted then m
  else
    (m.listeners.filter (·.2 == signal)).foldl
      (fun m l =>
        if l ∈ m.listeners then
          ({ m with listeners := m.listeners.filter (· != l) } : Machine).fail .cancelled
        else m)
      { m with aborted := signal :: m.aborted }

/-- `child.on('error', …)` and `child.stdin.on('error', …)`. -/
def onError (c : ChildId) (m : Machine) : Machine :=
  if m.worker.child = some c then m.fail .workerExit else m

/-- The process ends: `exitCode` or `signalCode` is set. -/
def onExit (c : ChildId) (m : Machine) : Machine :=
  if c < m.children ∧ ¬ m.hasExited c then m.record (.exited c) else m

/-- `close` of an exited child: the handler of `start`, then the one `fail` may have registered. -/
def onClose (c : ChildId) (m : Machine) : Machine :=
  if m.hasExited c ∧ ¬ m.hasClosed c then
    let m := m.record (.closed c)
    let m := if m.worker.child = some c then m.fail .workerExit else m
    if c ∈ m.reapers then
      { m with
        worker := { m.worker with retiring := false }
        reapers := m.reapers.filter (· != c) }
    else m
  else m

end Machine

/-- One entry into the worker: a call, or what Node calls back with. -/
inductive Event where
  | search (input : List (List UInt16 × Json)) (signal : Option SignalId)
  | openRoot
  | close
  | abort (signal : SignalId)
  | timer (call : CallId)
  | data (c : ChildId) (chunk : Bytes)
  | childError (c : ChildId)
  | stdinError (c : ChildId)
  | childExit (c : ChildId)
  | childClose (c : ChildId)

/-- One entry into the worker. -/
def Machine.step (rt : Runtime) : Event → Machine → Machine
  | .search input signal, m => (m.search rt input signal).2
  | .openRoot, m => m.openRoot.2
  | .close, m => m.close
  | .abort signal, m => m.onAbort signal
  | .timer call, m => m.onTimer call
  | .data c chunk, m => m.onData rt c chunk
  | .childError c, m | .stdinError c, m => m.onError c
  | .childExit c, m => m.onExit c
  | .childClose c, m => m.onClose c

/-- The worker behind a run. -/
def Machine.after (rt : Runtime) (expectedRootIdentity : Option JsString) (events : List Event) :
    Machine :=
  run (Machine.step rt) (Machine.create expectedRootIdentity) events

end JevGrep.Client
