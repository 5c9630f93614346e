/-
# `JevGrep.Service.Exact` — the public exact and read boundary.

`src/service/exact.ts`: `execute` checks a request, asks the registry, and turns the worker's success
into a public response: codes to issues, issues to partial reasons, matches cut to the byte budget by
a binary search, and `parseResponse` over the outcome. Every value the function reads from the clock,
the abort signal and the registry is a parameter (`World`).
-/
import JevGrep.Service.Contract

namespace JevGrep.Service

open JevGrep.Lib JevGrep.Lib.Schema JevGrep.Lib.Utf16
open JevGrep.Contracts (JsString)
open JevGrep.Worker (Bytes Code QueryKind)
open JevGrep.Client (WorkerHit WorkerSuccess WorkerResponse WorkerErrorCode objectOf rangeJson
  strings kindJson workerCodes)
open JevGrep.Workspace (WorkspaceErrorCode Answer Policy fingerprint Narrow)

/-! ## §1 — codes, issues and partial reasons. -/

/-- `mappings`. -/
def mappings : List (String × IssueCode) := [("REGEX_INVALID", .invalidRequest),
  ("MATCH_ENCODING", .capabilityUnavailable), ("ENTRY_LIMIT", .limitReached),
  ("DEPTH_LIMIT", .limitReached), ("WORKER_EXIT", .unavailable), ("WORKER_PROTOCOL", .unavailable),
  ("WORKER_BUSY", .unavailable), ("WORKER_CLOSED", .unavailable),
  ("WORKER_RESTARTING", .unavailable), ("ROOT_CHANGED", .unavailable),
  ("WORKSPACE_UNAVAILABLE", .unavailable), ("REGISTRY_CLOSED", .unavailable)]

/-- `codes`: the codes an issue takes over by name. -/
def codes : List IssueCode := [.unsupportedVersion, .invalidRequest, .outOfScope, .revisionMismatch,
  .readFailed, .sourceMutated, .policyChanged, .limitReached, .byteLimit, .cancelled, .deadline]

/-- The mapped code of `issue`. -/
def mapped (code : String) : IssueCode :=
  match mappings.lookup code with
  | some m => m
  | none => (codes.find? (·.name == code)).getD .unavailable

/-- The issue of a public code, as `issue` fills it in. -/
def issueOf (code : IssueCode) : Issue where
  code := code
  stage := if code == .invalidRequest || code == .unsupportedVersion then .validation else .workspace
  retryable := false
  message := code.name
  nextAction := if code == .invalidRequest then .fixRequest else .none

/-- `issue`. -/
def issue (code : String) : Issue := issueOf (mapped code)

/-- `reasons`. -/
def reasons : IssueCode → Option PartialReason
  | .limitReached | .byteLimit => some .limit
  | .cancelled => some .cancelled
  | .readFailed => some .readFailure
  | .deadline => some .deadline
  | .policyChanged => some .policyChanged
  | .sourceMutated => some .sourceMutated
  | _ => none

/-- The name a worker code has on the wire. -/
def codeName (c : Code) : String := ((workerCodes.find? (·.2 == c)).map (·.1)).getD ""

/-- The codes of `WorkerError`. -/
def workerErrorName : WorkerErrorCode → String
  | .cancelled => "CANCELLED"
  | .deadline => "DEADLINE"
  | .workerExit => "WORKER_EXIT"
  | .workerProtocol => "WORKER_PROTOCOL"
  | .workerBusy => "WORKER_BUSY"
  | .workerClosed => "WORKER_CLOSED"
  | .workerRestarting => "WORKER_RESTARTING"
  | .rootChanged => "ROOT_CHANGED"
  | .invalidRequest => "INVALID_REQUEST"

/-- The codes of `WorkspaceError`. -/
def workspaceErrorName : WorkspaceErrorCode → String
  | .invalidRequest => "INVALID_REQUEST"
  | .workspaceUnavailable => "WORKSPACE_UNAVAILABLE"
  | .outOfScope => "OUT_OF_SCOPE"
  | .registryClosed => "REGISTRY_CLOSED"
  | .registryFull => "REGISTRY_FULL"

/-- The first of every group of issues with one code. -/
def dedupIssues (issues : List Issue) : List Issue :=
  issues.foldl (fun kept i => if kept.any (·.code == i.code) then kept else kept ++ [i]) []

/-- `native.reasons.map(issue)` without repeated codes. -/
def issuesOf (codes : List Code) : List Issue := dedupIssues (codes.map fun c => issue (codeName c))

/-- `[...new Set(issues.flatMap(…))]`. -/
def partialReasonsOf (issues : List Issue) : List PartialReason :=
  (issues.filterMap fun i => reasons i.code).eraseDups

/-! ## §2 — evidence and scope. -/

/-- `matcherVersion` of every worker success. -/
def MATCHER_VERSION : JsString := units "grep-regex-0.1.14"

/-- The evidence id. -/
def evidenceId (sha256 : Bytes → Bytes) (a : Answer) (hit : WorkerHit) : JsString :=
  fingerprint sha256 (objectOf [("version", some (.nat 1)), ("workspaceId", some (.str a.workspaceId)),
    ("policyHash", some (.str a.policyHash)), ("path", some (.str hit.path)),
    ("fileSha256", some (.str hit.fileSha256)), ("range", some (rangeJson hit.range))])

/-- `evidence`. -/
def evidence (sha256 : Bytes → Bytes) (a : Answer) (hit : WorkerHit) : Evidence where
  id := evidenceId sha256 a hit
  path := hit.path
  fileSha256 := hit.fileSha256
  range := hit.range
  excerpt := hit.excerpt

/-- `scopedGroup`: the narrowing's includes where there are some, else the registered ones. -/
def shownIncludes (a : Answer) : List JsString :=
  match a.scope.includeGroups[1]? with
  | some (p :: ps) => p :: ps
  | _ => a.policy.includes

/-- `scope`. -/
def scope (a : Answer) (s : WorkerSuccess) : EffectiveScope where
  workspaceId := a.workspaceId
  policyId := a.scopePolicyId
  policyHash := a.policyHash
  includes := shownIncludes a
  includeGroups := a.scope.includeGroups
  exclude := a.scope.exclude
  effectivePolicyHash := a.effectivePolicyHash
  policySnapshotHash := s.policySnapshotHash
  hidden := a.policy.hidden
  respectIgnore := a.policy.respectIgnore
  maxFileBytes := a.policy.maxFileBytes
  counts := {
    searched := .known s.counts.searched
    failed := .known s.counts.failed
    indexed := .unknown "No index is consulted"
    excluded := .unknown "Worker counts pruned entries, not excluded descendant files"
    unsupported := .unknown "Worker exclusions are not yet categorized"
    oversized := .unknown "Worker exclusions are not yet categorized" }

/-! ## §3 — the byte budget. -/

/-- The binary search for the longest prefix that fits, between `low` and `high`: `fits` says whether a
prefix of that length fits, and `late n` whether the n-th reading of the clock is past the deadline.
Every round shrinks the interval, so its length is fuel enough. The result has the number of the next
reading; `none` is the deadline. -/
def trim (fits : Nat → Bool) (late : Nat → Bool) : Nat → Nat → Nat → Nat → Option (Nat × Nat)
  | 0, reading, low, _ => some (low, reading)
  | fuel + 1, reading, low, high =>
      if low < high then
        if late reading then none
        else
          let middle := (low + high + 1) / 2
          if fits middle then trim fits late fuel (reading + 1) middle high
          else trim fits late fuel (reading + 1) low (middle - 1)
      else some (low, reading)

/-! ## §4 — `execute`. -/

/-- How `registry.search` ended. -/
inductive Outcome where
  | answered (a : Answer)
  | workspaceError (code : WorkspaceErrorCode)
  | workerError (code : WorkerErrorCode)
  /-- Any other exception. -/
  | threw

/-- What one call of `execute` meets: the n-th reading of `performance.now()` in nanoseconds and of
`Date.now()` in milliseconds, whether the signal is aborted before and behind the search, and the
registry's answer to a search input. -/
structure World where
  sha256 : Bytes → Bytes
  dates : Dates
  clock : Nat → Int
  date : Nat → Nat
  abortedBefore : Bool
  abortedAfter : Bool
  search : Json → Outcome

/-- The text of the query, and the input of `registry.search`. -/
def searchInput (r : Request) (remaining responseBytes : Nat) : Json :=
  let common : List (String × Option Json) :=
    [("workspaceId", some (.str r.workspaceId)), ("scopePolicyId", some (.str r.scopePolicyId)),
      ("narrow", r.narrow.map fun n =>
        objectOf [("include", some (strings n.includes)), ("exclude", some (strings n.exclude))]),
      ("deadlineMs", some (.nat remaining)), ("responseBytes", some (.nat responseBytes))]
  match r.operation with
  | .exact kind query caseSensitive maxMatches =>
      objectOf (common ++ [("pattern", some (.str query)), ("kind", some (kindJson kind)),
        ("caseSensitive", some (.bool caseSensitive)), ("maxMatches", some (.nat maxMatches))])
  | .discover .. => objectOf common
  | .read operation path range _ =>
      objectOf (common ++ [("pattern", some (.str (units "scoped-read"))),
        ("read", some (objectOf [("path", some (.str path)), ("range", some (rangeJson range)),
          ("expectedFileSha256", match operation with
            | .verified digest => some (.str digest)
            | .fresh => none)]))])

section Execute

variable (w : World) (request : Request) (context : Context)

/-- The local `error`; `none` is what `parseResponse` throws. -/
def errorResponse (code : String) : Option Response :=
  parseResponse w.dates (.error request.requestId (issue code)) request

/-- `performance.now() - started >= context.deadlineMs` at the n-th reading. -/
def late (n : Nat) : Bool := context.deadlineMs * 1000000 ≤ w.clock n - w.clock 0

/-- The response of an exact search before the byte budget is applied. -/
def exactResponse (a : Answer) (s : WorkerSuccess) (kind : QueryKind) (issues : List Issue)
    (coverage : ExactCoverage) (hits : List WorkerHit) : Response :=
  .ok request.requestId (scope a s) issues
    (.exact (w.date 0) (max (w.date 0) (w.date 1)) coverage
      (hits.map fun hit => {
        evidence := evidence w.sha256 a hit, queryKind := kind, matcherVersion := MATCHER_VERSION }))

/-- The coverage for the partial reasons of a result. -/
def coverageOf (reasons : List PartialReason) : ExactCoverage :=
  if reasons = [] then .complete else .incomplete reasons

/-- What ends the `try` of `execute` early: an error of the registry or the worker with its code, or any
other exception. -/
inductive Thrown where
  | coded (code : String)
  | other

/-- `return error(code)` inside the `try`. -/
def fail (code : String) : Except Thrown Response :=
  match errorResponse w request code with
  | some response => .ok response
  | none => .error .other

/-- The end of `execute`: the size check, `parseResponse` and the last look at the clock. -/
def finish (reading : Nat) (response : Response) : Except Thrown Response :=
  if response.bytes w.dates > context.responseBytes then fail w request "BYTE_LIMIT"
  else
    match parseResponse w.dates response request with
    | none => .error .other
    | some validated =>
        if late w context reading then fail w request "DEADLINE" else .ok validated

/-- `execute` from an exact success on. -/
def executeExact (a : Answer) (s : WorkerSuccess) (kind : QueryKind) : Except Thrown Response :=
  let issues := issuesOf s.reasons
  let reasons := partialReasonsOf issues
  let response := exactResponse w request a s kind issues (coverageOf reasons) s.hits
  if response.bytes w.dates > context.responseBytes then
    let issues := if issues.any (·.code == .byteLimit) then issues else issues ++ [issue "BYTE_LIMIT"]
    let coverage := ExactCoverage.incomplete (reasons ++ [PartialReason.limit]).eraseDups
    let cut (n : Nat) := exactResponse w request a s kind issues coverage (s.hits.take n)
    match trim (fun n => (cut n).bytes w.dates ≤ context.responseBytes) (late w context)
        s.hits.length 3 0 s.hits.length with
    | none => fail w request "DEADLINE"
    | some (n, reading) => finish w request context reading (cut n)
  else finish w request context 3 response

/-- `execute` from a read success on. -/
def executeRead (a : Answer) (s : WorkerSuccess) (operation : ReadOperation) :
    Except Thrown Response :=
  match s.hits with
  | [] => fail w request "READ_FAILED"
  | hit :: _ =>
      finish w request context 3 (.ok request.requestId (scope a s) (issuesOf s.reasons)
        (.read operation (evidence w.sha256 a hit) (w.date 1)))

/-- The `try` of `execute`. -/
def attempt : Except Thrown Response :=
  let remaining := (context.deadlineMs * 1000000 - (w.clock 1 - w.clock 0)) / 1000000
  if remaining < 1 then fail w request "DEADLINE"
  else
    match w.search (searchInput request remaining.toNat context.responseBytes) with
    | .workspaceError code => .error (.coded (workspaceErrorName code))
    | .workerError code => .error (.coded (workerErrorName code))
    | .threw => .error .other
    | .answered a =>
        if w.abortedAfter then fail w request "CANCELLED"
        else if late w context 2 then fail w request "DEADLINE"
        else
          match a.result with
          | .error _ code => fail w request (codeName code)
          | .ok s =>
              match request.operation with
              | .exact kind _ _ _ => executeExact w request context a s kind
              | .read operation _ _ _ => executeRead w request context a s operation
              | .discover .. => .error .other

end Execute

/-- The id that an answer to an unreadable request carries. -/
def candidateId : Json → JsString
  | .obj members => ((lookup members "requestId").bind idSchema).getD (units "invalid")
  | _ => units "invalid"

/-- The code of an unreadable request. -/
def rejection : Json → String
  | .obj members =>
      match lookup members "version" with
      | some (.nat 1) | none => "INVALID_REQUEST"
      | some _ => "UNSUPPORTED_VERSION"
  | _ => "INVALID_REQUEST"

/-- The context a deployment allows. -/
def Context.lower (context caps : Context) : Context where
  deadlineMs := min context.deadlineMs caps.deadlineMs
  responseBytes := min context.responseBytes caps.responseBytes

/-- `execute` of a service with the given caps; `none` is a rejected promise. -/
def execute (w : World) (caps : Context) (input contextInput : Json) : Option Response :=
  match parseRequest input, contextSchema contextInput with
  | some request, some context =>
      let context := context.lower caps
      if w.abortedBefore then errorResponse w request "CANCELLED"
      else
        match request.operation with
        | .discover .. => some (.error request.requestId
            { issue "UNAVAILABLE" with code := .capabilityUnavailable })
        | _ =>
            match attempt w request context with
            | .ok response => some response
            | .error (.coded code) => errorResponse w request code
            | .error .other => errorResponse w request "UNAVAILABLE"
  | _, _ => some (.error (candidateId input) (issue (rejection input)))

end JevGrep.Service
