/-
# `JevGrep.Service.Contract` — public requests and responses and their checks.

`src/contracts/schemas.ts` and `src/contracts/validation.ts`: the request and context schemas with
`parseRequest`, and what `parseResponse` asks of a response. The service builds its responses itself,
so they are structures here, and the response schema is the conjunction of its field checks; a
discovery result is never built and has no form. Times are milliseconds; what `toISOString` writes and
`z.iso.datetime()` accepts are parameters (`Dates`).
-/
import JevGrep.Workspace.Registry

namespace JevGrep.Service

open JevGrep.Lib JevGrep.Lib.Schema JevGrep.Lib.Utf16
open JevGrep.Contracts (JsString pathSchema)
open JevGrep.Worker (QueryKind Range)
open JevGrep.Client (WorkerExcerpt isDigest digestSchema pathString rangeSchema)
open JevGrep.Workspace (Narrow withDefault)

/-! ## §1 — requests. -/

/-- `/^[A-Za-z0-9][A-Za-z0-9._-]*$/` with 1 to 128 characters. -/
def isId (s : JsString) : Bool :=
  let alphanumeric (u : UInt16) : Bool :=
    (0x41 ≤ u.toNat && u.toNat ≤ 0x5a) || (0x61 ≤ u.toNat && u.toNat ≤ 0x7a)
      || (0x30 ≤ u.toNat && u.toNat ≤ 0x39)
  1 ≤ s.length && s.length ≤ 128 && s.head?.any alphanumeric
    && s.all fun u => alphanumeric u || u.toNat == 0x2e || u.toNat == 0x5f || u.toNat == 0x2d

/-- `id`. -/
def idSchema (v : Json) : Option JsString := (string v).filter isId

/-- `patterns` of the public schemas: bounded in code units only. -/
def patterns (v : Json) : Option (List JsString) := array (boundedString 1 1024) 64 v

/-- The two operations that read a source. -/
inductive ReadOperation where
  | verified (expectedFileSha256 : JsString)
  | fresh
  deriving DecidableEq

/-- The part of a request that its operation has for itself. -/
inductive Operation where
  | exact (kind : QueryKind) (query : JsString) (caseSensitive : Bool) (maxMatches : Nat)
  | discover (question : JsString) (anchors : List JsString)
  | read (operation : ReadOperation) (path : JsString) (range : Range) (byteBudget : Nat)
  deriving DecidableEq

/-- A request with its envelope. -/
structure Request where
  requestId : JsString
  workspaceId : JsString
  scopePolicyId : JsString
  narrow : Option Narrow
  operation : Operation
  deriving DecidableEq

/-- The members of `envelope`, and the discriminator. -/
def envelopeNames : List String :=
  ["version", "requestId", "workspaceId", "scopePolicyId", "narrow", "operation"]

/-- The `narrow` of the envelope. -/
def publicNarrow (v : Json) : Option Narrow := do
  let o ← strictObject ["include", "exclude"] v
  let includes ← required o "include" patterns
  let exclude ← required o "exclude" patterns
  return { includes, exclude }

/-- The members of `envelope`, around the members of an operation. -/
def withEnvelope (o : List (List UInt16 × Json)) (operation : Operation) : Option Request := do
  let _ ← required o "version" (int 1 1)
  let requestId ← required o "requestId" idSchema
  let workspaceId ← required o "workspaceId" idSchema
  let scopePolicyId ← required o "scopePolicyId" idSchema
  let narrow ← optional o "narrow" publicNarrow
  return { requestId, workspaceId, scopePolicyId, narrow, operation }

/-- The `query` union of `ExactRequestSchema`. -/
def literalQuery (v : Json) : Option (QueryKind × JsString × Bool) := do
  let o ← strictObject ["kind", "text", "caseSensitive"] v
  let _ ← required o "kind" (choice [("literal", ())])
  let text ← required o "text" (boundedString 1 8192)
  let caseSensitive ← required o "caseSensitive" bool
  return (.literal, text, caseSensitive)

/-- The `regex` branch of a query. -/
def regexQuery (v : Json) : Option (QueryKind × JsString × Bool) := do
  let o ← strictObject ["kind", "pattern", "caseSensitive"] v
  let _ ← required o "kind" (choice [("regex", ())])
  let pattern ← required o "pattern" (boundedString 1 8192)
  let caseSensitive ← required o "caseSensitive" bool
  return (.regex, pattern, caseSensitive)

/-- `ExactRequestSchema`. -/
def exactRequestSchema (v : Json) : Option Request := do
  let o ← strictObject (envelopeNames ++ ["query", "maxMatches"]) v
  let _ ← required o "operation" (choice [("exact", ())])
  let (kind, query, caseSensitive) ← required o "query" fun v => literalQuery v <|> regexQuery v
  let maxMatches ← required o "maxMatches" (int 1 1000)
  withEnvelope o (.exact kind query caseSensitive maxMatches)

/-- `DiscoveryRequestSchema`. -/
def discoveryRequestSchema (v : Json) : Option Request := do
  let o ← strictObject (envelopeNames ++ ["question", "anchors", "maxHits", "verifyLive"]) v
  let _ ← required o "operation" (choice [("discover", ())])
  let question ← required o "question" (boundedString 1 8192)
  let anchors ← required o "anchors" (array (boundedString 1 256) 16)
  let _ ← required o "maxHits" (int 1 1000)
  let _ ← required o "verifyLive" bool
  withEnvelope o (.discover question anchors)

/-- `readFields`. -/
def readFields (o : List (List UInt16 × Json)) (operation : ReadOperation) : Option Request := do
  let path ← required o "path" pathString
  let range ← required o "range" rangeSchema
  let byteBudget ← required o "byteBudget" (int 1 1048576)
  withEnvelope o (.read operation path range byteBudget)

/-- `ReadVerifiedRequestSchema`. -/
def readVerifiedRequestSchema (v : Json) : Option Request := do
  let o ← strictObject (envelopeNames ++ ["path", "range", "byteBudget", "expectedFileSha256"]) v
  let _ ← required o "operation" (choice [("read-verified", ())])
  let expectedFileSha256 ← required o "expectedFileSha256" digestSchema
  readFields o (.verified expectedFileSha256)

/-- `ReadFreshRequestSchema`. -/
def readFreshRequestSchema (v : Json) : Option Request := do
  let o ← strictObject (envelopeNames ++ ["path", "range", "byteBudget"]) v
  let _ ← required o "operation" (choice [("read-fresh", ())])
  readFields o .fresh

/-- `RequestSchema`. -/
def requestSchema (v : Json) : Option Request :=
  exactRequestSchema v <|> discoveryRequestSchema v <|> readVerifiedRequestSchema v
    <|> readFreshRequestSchema v

/-- `byteText`. -/
def byteText (text : JsString) (max : Nat) : Bool := isWellFormed text && byteLength text ≤ max

/-- The invariants of `parseRequest` behind the schema. -/
def requestInvariants (r : Request) : Bool :=
  (match r.narrow with
    | none => true
    | some narrow => (narrow.includes ++ narrow.exclude).all (byteText · 1024))
    && match r.operation with
      | .exact _ query _ _ =>
          byteText query 8192
            && !query.any fun u => u.toNat == 0x0d || u.toNat == 0x0a || u.toNat == 0
      | .discover question anchors => byteText question 8192 && anchors.all (byteText · 256)
      | .read _ path range byteBudget =>
          byteText path 4096 && range.start ≤ range.stop && range.stop - range.start ≤ byteBudget

/-- `parseRequest`; `none` is a thrown error. -/
def parseRequest (input : Json) : Option Request := (requestSchema input).filter requestInvariants

/-- `RequestContextSchema`. -/
structure Context where
  deadlineMs : Nat
  responseBytes : Nat
  deriving DecidableEq

/-- `RequestContextSchema`. -/
def contextSchema (v : Json) : Option Context := do
  let o ← strictObject ["deadlineMs", "responseBytes"] v
  let deadlineMs ← withDefault o "deadlineMs" 10000 (int 1 30000)
  let responseBytes ← withDefault o "responseBytes" 65536 (int 2048 1048576)
  return { deadlineMs, responseBytes }

/-! ## §2 — responses. -/

/-- `IssueCodeSchema`. -/
inductive IssueCode where
  | invalidRequest | unsupportedVersion | unavailable | outOfScope | revisionMismatch | readFailed
  | sourceMutated | policyChanged | limitReached | byteLimit | cancelled | deadline | indexMissing
  | indexIncompatible | indexUnavailable | indexBusy | storageFull | providerFailed | egressDenied
  | capabilityUnavailable
  deriving DecidableEq, Repr

/-- A code as the contract spells it. -/
def IssueCode.name : IssueCode → String
  | .invalidRequest => "INVALID_REQUEST"
  | .unsupportedVersion => "UNSUPPORTED_VERSION"
  | .unavailable => "UNAVAILABLE"
  | .outOfScope => "OUT_OF_SCOPE"
  | .revisionMismatch => "REVISION_MISMATCH"
  | .readFailed => "READ_FAILED"
  | .sourceMutated => "SOURCE_MUTATED"
  | .policyChanged => "POLICY_CHANGED"
  | .limitReached => "LIMIT_REACHED"
  | .byteLimit => "BYTE_LIMIT"
  | .cancelled => "CANCELLED"
  | .deadline => "DEADLINE"
  | .indexMissing => "INDEX_MISSING"
  | .indexIncompatible => "INDEX_INCOMPATIBLE"
  | .indexUnavailable => "INDEX_UNAVAILABLE"
  | .indexBusy => "INDEX_BUSY"
  | .storageFull => "STORAGE_FULL"
  | .providerFailed => "PROVIDER_FAILED"
  | .egressDenied => "EGRESS_DENIED"
  | .capabilityUnavailable => "CAPABILITY_UNAVAILABLE"

/-- The stages and next actions the service uses. -/
inductive Stage where
  | validation | workspace
  deriving DecidableEq

/-- What an issue tells the caller to do. -/
inductive NextAction where
  | fixRequest | none
  deriving DecidableEq

/-- `Issue` without its optional path, which the service never sets. -/
structure Issue where
  code : IssueCode
  stage : Stage
  retryable : Bool
  message : String
  nextAction : NextAction
  deriving DecidableEq

/-- `exactReason`. -/
inductive PartialReason where
  | limit | cancelled | readFailure | deadline | policyChanged | sourceMutated
  deriving DecidableEq, Repr

/-- `reportedCount`. -/
inductive ReportedCount where
  | known (value : Nat)
  | unknown (reason : String)
  deriving DecidableEq

/-- The `counts` of `EffectiveScopeSchema`. -/
structure ReportedCounts where
  searched : ReportedCount
  failed : ReportedCount
  indexed : ReportedCount
  excluded : ReportedCount
  unsupported : ReportedCount
  oversized : ReportedCount
  deriving DecidableEq

/-- `EffectiveScopeSchema`; `symlinks` and `encoding` are the literals `reject` and `utf-8`. -/
structure EffectiveScope where
  workspaceId : JsString
  policyId : JsString
  policyHash : JsString
  includes : List JsString
  includeGroups : List (List JsString)
  exclude : List JsString
  effectivePolicyHash : JsString
  policySnapshotHash : JsString
  hidden : Bool
  respectIgnore : Bool
  maxFileBytes : Nat
  counts : ReportedCounts
  deriving DecidableEq

/-- `EvidenceSchema`. -/
structure Evidence where
  id : JsString
  path : JsString
  fileSha256 : JsString
  range : Range
  excerpt : WorkerExcerpt
  deriving DecidableEq

/-- `exactMatch`; the provenance kind is `exact`. -/
structure ExactMatch where
  evidence : Evidence
  queryKind : QueryKind
  matcherVersion : JsString
  deriving DecidableEq

/-- The `coverage` of `ExactResultSchema`. -/
inductive ExactCoverage where
  | complete
  | incomplete (reasons : List PartialReason)
  deriving DecidableEq

/-- The results the service builds. -/
inductive Result where
  | exact (startedAt endedAt : Nat) (coverage : ExactCoverage) (hits : List ExactMatch)
  | read (operation : ReadOperation) (evidence : Evidence) (capturedAt : Nat)
  deriving DecidableEq

/-- `ResponseSchema`, for the results the service builds. -/
inductive Response where
  | error (requestId : JsString) (issue : Issue)
  | ok (requestId : JsString) (scope : EffectiveScope) (issues : List Issue) (result : Result)
  deriving DecidableEq

/-- `Date.prototype.toISOString` of a time in milliseconds, and `z.iso.datetime()`. -/
structure Dates where
  iso : Nat → JsString
  isDatetime : JsString → Bool

/-! ## §3 — `parseResponse`. -/

/-- `count`. -/
def isCount (n : Nat) : Bool := n ≤ MAX_SAFE_INTEGER

/-- `RangeSchema`. -/
def rangeShape (r : Range) : Bool := isCount r.start && isCount r.stop

/-- A string within its bounds. -/
def boundedText (least most : Nat) (s : JsString) : Bool := least ≤ s.length && s.length ≤ most

/-- `EvidenceSchema`. -/
def evidenceSchema (e : Evidence) : Bool :=
  isId e.id && pathSchema e.path && isDigest e.fileSha256 && rangeShape e.range
    && rangeShape e.excerpt.range && e.excerpt.text.length ≤ 4096

/-- `reportedCount`. -/
def reportedCountSchema : ReportedCount → Bool
  | .known value => isCount value
  | .unknown reason => boundedText 1 256 (units reason)

/-- `EffectiveScopeSchema`. -/
def scopeSchema (s : EffectiveScope) : Bool :=
  isId s.workspaceId && isId s.policyId && isDigest s.policyHash
    && s.includes.length ≤ 64 && s.includes.all (boundedText 1 1024)
    && s.exclude.length ≤ 128 && s.exclude.all (boundedText 1 1024)
    && s.includeGroups.length ≤ 2
    && s.includeGroups.all (fun g => g.length ≤ 64 && g.all (boundedText 1 1024))
    && isDigest s.effectivePolicyHash && isDigest s.policySnapshotHash
    && 1 ≤ s.maxFileBytes && s.maxFileBytes ≤ 16777216
    && [s.counts.searched, s.counts.failed, s.counts.indexed, s.counts.excluded,
      s.counts.unsupported, s.counts.oversized].all reportedCountSchema

/-- `IssueSchema`. -/
def issueSchema (i : Issue) : Bool := boundedText 1 512 (units i.message)

/-- `ExactResultSchema` and `ReadResultSchema`. -/
def resultSchema (d : Dates) : Result → Bool
  | .exact startedAt endedAt coverage hits =>
      d.isDatetime (d.iso startedAt) && d.isDatetime (d.iso endedAt)
        && (match coverage with
          | .complete => true
          | .incomplete reasons => 1 ≤ reasons.length && reasons.length ≤ 6)
        && hits.length ≤ 1000
        && hits.all fun hit => evidenceSchema hit.evidence && isId hit.matcherVersion
  | .read _ evidence capturedAt => evidenceSchema evidence && d.isDatetime (d.iso capturedAt)

/-- `ResponseSchema`. -/
def responseSchema (d : Dates) : Response → Bool
  | .error requestId issue => isId requestId && issueSchema issue
  | .ok requestId scope issues result =>
      isId requestId && scopeSchema scope && issues.length ≤ 128 && issues.all issueSchema
        && resultSchema d result

/-- `evidenceShape`. -/
def evidenceShape (e : Evidence) : Bool :=
  let contains := e.excerpt.range.start ≤ e.range.start && e.range.stop ≤ e.excerpt.range.stop
  byteText e.path 4096 && byteText e.excerpt.text 4096 && e.range.start ≤ e.range.stop
    && e.excerpt.range.start ≤ e.excerpt.range.stop
    && byteLength e.excerpt.text == e.excerpt.range.stop - e.excerpt.range.start
    && e.excerpt.truncated == !contains

/-- `reasonCodes`. -/
def reasonCodes : PartialReason → List IssueCode
  | .limit => [.limitReached, .byteLimit]
  | .cancelled => [.cancelled]
  | .readFailure => [.readFailed]
  | .deadline => [.deadline]
  | .policyChanged => [.policyChanged]
  | .sourceMutated => [.sourceMutated]

/-- `partialReasons`. -/
def partialReasonsHold (reasons : List PartialReason) (issues : List Issue) : Bool :=
  decide reasons.Nodup
    && reasons.all fun reason => issues.any fun i => (reasonCodes reason).contains i.code

/-- The issues that no `ok` response may carry. -/
def fatalCodes : List IssueCode :=
  [.invalidRequest, .unsupportedVersion, .indexMissing, .indexIncompatible, .indexUnavailable]

/-- The issues that rule a complete result out. -/
def interruptions : List IssueCode :=
  [.readFailed, .sourceMutated, .policyChanged, .limitReached, .byteLimit, .cancelled, .deadline]

/-- The invariants of `parseResponse` about an exact result. -/
def exactInvariants (scope : EffectiveScope) (issues : List Issue) (startedAt endedAt : Nat)
    (coverage : ExactCoverage) (hits : List ExactMatch) (kind : QueryKind) (maxMatches : Nat) :
    Bool :=
  startedAt ≤ endedAt && hits.length ≤ maxMatches
    && (match coverage with
      | .incomplete reasons => partialReasonsHold reasons issues
      | .complete =>
          !issues.any (fun i => interruptions.contains i.code) && scope.counts.failed == .known 0)
    && hits.all fun hit => evidenceShape hit.evidence && hit.queryKind == kind

/-- The invariants of `parseResponse` about a read. -/
def readInvariants (evidence : Evidence) (operation : ReadOperation) (path : JsString)
    (range : Range) : Bool :=
  evidenceShape evidence && evidence.path == path && evidence.range == range
    && !evidence.excerpt.truncated && evidence.excerpt.range == range
    && match operation with
      | .verified expectedFileSha256 => evidence.fileSha256 == expectedFileSha256
      | .fresh => true

/-- The invariants of `parseResponse` about a result and the request it answers. -/
def resultInvariants (scope : EffectiveScope) (issues : List Issue) (result : Result)
    (operation : Operation) : Bool :=
  match result, operation with
  | .exact startedAt endedAt coverage hits, .exact kind _ _ maxMatches =>
      exactInvariants scope issues startedAt endedAt coverage hits kind maxMatches
  | .read (.verified _) evidence _, .read (.verified expected) path range _ =>
      readInvariants evidence (.verified expected) path range
  | .read .fresh evidence _, .read .fresh path range _ => readInvariants evidence .fresh path range
  | _, _ => false

/-- The invariants of `parseResponse` behind the schema; `bytes` is the size of the response. -/
def responseInvariants (bytes : Nat) (request : Request) : Response → Bool
  | .error requestId issue =>
      requestId == request.requestId && bytes ≤ 1048576
        && !(issue.code == .cancelled && !(!issue.retryable && issue.nextAction == .none))
  | .ok requestId scope issues result =>
      requestId == request.requestId && bytes ≤ 1048576
        && scope.workspaceId == request.workspaceId && scope.policyId == request.scopePolicyId
        && !issues.any (fun i => fatalCodes.contains i.code)
        && (scope.includes ++ scope.exclude).all (byteText · 1024)
        && resultInvariants scope issues result request.operation

/-! ## §4 — the text of a response. -/

open JevGrep.Client (objectOf strings rangeJson kindJson)

/-- A stage as `JSON.stringify` has it. -/
def Stage.json : Stage → Json
  | .validation => .str (units "validation")
  | .workspace => .str (units "workspace")

/-- A next action as `JSON.stringify` has it. -/
def NextAction.json : NextAction → Json
  | .fixRequest => .str (units "fix-request")
  | .none => .str (units "none")

/-- An issue, member by member in the order of `issue`. -/
def Issue.json (i : Issue) : Json :=
  objectOf [("code", some (.str (units i.code.name))), ("stage", some i.stage.json),
    ("retryable", some (.bool i.retryable)), ("message", some (.str (units i.message))),
    ("nextAction", some i.nextAction.json)]

/-- A partial reason as the contract spells it. -/
def PartialReason.json : PartialReason → Json
  | .limit => .str (units "limit")
  | .cancelled => .str (units "cancelled")
  | .readFailure => .str (units "read-failure")
  | .deadline => .str (units "deadline")
  | .policyChanged => .str (units "policy-changed")
  | .sourceMutated => .str (units "source-mutated")

/-- A count that is known, or the reason why it is not. -/
def ReportedCount.json : ReportedCount → Json
  | .known value => objectOf [("value", some (.nat value)), ("reason", some .null)]
  | .unknown reason => objectOf [("value", some .null), ("reason", some (.str (units reason)))]

/-- A scope, in the order of `scope`. -/
def EffectiveScope.json (s : EffectiveScope) : Json :=
  objectOf [("workspaceId", some (.str s.workspaceId)), ("policyId", some (.str s.policyId)),
    ("policyHash", some (.str s.policyHash)), ("include", some (strings s.includes)),
    ("includeGroups", some (.arr (s.includeGroups.map strings))),
    ("exclude", some (strings s.exclude)),
    ("effectivePolicyHash", some (.str s.effectivePolicyHash)),
    ("policySnapshotHash", some (.str s.policySnapshotHash)), ("hidden", some (.bool s.hidden)),
    ("respectIgnore", some (.bool s.respectIgnore)), ("symlinks", some (.str (units "reject"))),
    ("encoding", some (.str (units "utf-8"))), ("maxFileBytes", some (.nat s.maxFileBytes)),
    ("counts", some (objectOf [("searched", some s.counts.searched.json),
      ("failed", some s.counts.failed.json), ("indexed", some s.counts.indexed.json),
      ("excluded", some s.counts.excluded.json), ("unsupported", some s.counts.unsupported.json),
      ("oversized", some s.counts.oversized.json)]))]

/-- An excerpt, in the order of the worker's schema. -/
def excerptJson (e : WorkerExcerpt) : Json :=
  objectOf [("range", some (rangeJson e.range)), ("text", some (.str e.text)),
    ("truncated", some (.bool e.truncated))]

/-- An evidence, in the order of `evidence`. -/
def Evidence.json (e : Evidence) : Json :=
  objectOf [("id", some (.str e.id)), ("path", some (.str e.path)),
    ("fileSha256", some (.str e.fileSha256)), ("range", some (rangeJson e.range)),
    ("excerpt", some (excerptJson e.excerpt))]

/-- A match with its provenance. -/
def ExactMatch.json (m : ExactMatch) : Json :=
  objectOf [("evidence", some m.evidence.json),
    ("provenance", some (objectOf [("kind", some (.str (units "exact"))),
      ("queryKind", some (kindJson m.queryKind)),
      ("matcherVersion", some (.str m.matcherVersion))]))]

/-- The coverage of a result. -/
def ExactCoverage.json : ExactCoverage → Json
  | .complete => objectOf [("kind", some (.str (units "complete")))]
  | .incomplete reasons => objectOf [("kind", some (.str (units "partial"))),
      ("reasons", some (.arr (reasons.map PartialReason.json)))]

/-- The name of a read operation. -/
def ReadOperation.json : ReadOperation → Json
  | .verified _ => .str (units "read-verified")
  | .fresh => .str (units "read-fresh")

/-- A result, with its times through `toISOString`. -/
def Result.json (d : Dates) : Result → Json
  | .exact startedAt endedAt coverage hits =>
      objectOf [("operation", some (.str (units "exact"))),
        ("source", some (objectOf [("kind", some (.str (units "live-read"))),
          ("startedAt", some (.str (d.iso startedAt))), ("endedAt", some (.str (d.iso endedAt)))])),
        ("coverage", some coverage.json), ("matches", some (.arr (hits.map ExactMatch.json)))]
  | .read operation evidence capturedAt =>
      objectOf [("operation", some operation.json), ("evidence", some evidence.json),
        ("capturedAt", some (.str (d.iso capturedAt)))]

/-- A response as `JSON.stringify` has it. -/
def Response.json (d : Dates) : Response → Json
  | .error requestId issue =>
      objectOf [("version", some (.nat 1)), ("requestId", some (.str requestId)),
        ("status", some (.str (units "error"))), ("error", some issue.json)]
  | .ok requestId scope issues result =>
      objectOf [("version", some (.nat 1)), ("requestId", some (.str requestId)),
        ("status", some (.str (units "ok"))), ("scope", some scope.json),
        ("issues", some (.arr (issues.map Issue.json))), ("result", some (result.json d))]

/-- `Buffer.byteLength(JSON.stringify(response))`. -/
def Response.bytes (d : Dates) (r : Response) : Nat := Json.size (r.json d)

/-- `parseResponse`; `none` is a thrown error. The parsed copy has the same members as its input. -/
def parseResponse (d : Dates) (r : Response) (request : Request) : Option Response :=
  if responseSchema d r && responseInvariants (r.bytes d) request r then some r else none

end JevGrep.Service
