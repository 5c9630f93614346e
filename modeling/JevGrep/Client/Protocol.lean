/-
# `JevGrep.Client.Protocol` — the client's side of the private worker protocol.

`src/worker/protocol.ts` with the schemas it takes from `src/contracts/schemas.ts`, over parsed JSON:
what the client accepts as a request, as a hello and as a response, and the invariants
`validateWorkerResponse` checks behind the schema.
-/
import JevGrep.Lib.Schema
import JevGrep.Worker.Types
import JevGrep.Contracts.PathSchema

namespace JevGrep.Client

open JevGrep.Lib JevGrep.Lib.Schema JevGrep.Lib.Utf16
open JevGrep.Contracts (JsString pathSchema)
open JevGrep.Worker (Code QueryKind Range Counts Coverage FRAME_CAP)

/-! ## §1 — shared field schemas. -/

/-- `/^[a-f0-9]{64}$/`. -/
def isDigest (s : JsString) : Bool :=
  s.length == 64 && s.all fun u =>
    (0x61 ≤ u.toNat && u.toNat ≤ 0x66) || (0x30 ≤ u.toNat && u.toNat ≤ 0x39)

/-- `DigestSchema`. -/
def digestSchema (v : Json) : Option JsString := (string v).filter isDigest

/-- `PathSchema`. -/
def pathString (v : Json) : Option JsString := (string v).filter pathSchema

/-- `RangeSchema`. -/
def rangeSchema (v : Json) : Option Range := do
  let o ← strictObject ["start", "end"] v
  let start ← required o "start" (int 0 MAX_SAFE_INTEGER)
  let stop ← required o "end" (int 0 MAX_SAFE_INTEGER)
  return ⟨start, stop⟩

/-- `/^\d+$/`. -/
def isDecimal (s : JsString) : Bool :=
  !s.isEmpty && s.all fun u => 0x30 ≤ u.toNat && u.toNat ≤ 0x39

/-! ## §2 — requests. -/

/-- `WorkerScopeSchema`. -/
structure WorkerScope where
  includeGroups : List (List JsString)
  exclude : List JsString
  hidden : Bool
  respectIgnore : Bool
  deriving DecidableEq

/-- The `read` of `WorkerRequestSchema`. -/
structure WorkerRead where
  path : JsString
  range : Range
  expectedFileSha256 : Option JsString
  deriving DecidableEq

/-- `v` is the literal 1. -/
structure WorkerRequest where
  id : JsString
  pattern : JsString
  kind : QueryKind
  caseSensitive : Bool
  maxMatches : Nat
  maxFileBytes : Nat
  responseBytes : Nat
  deadlineMs : Nat
  scope : Option WorkerScope
  validateScopeOnly : Option Bool
  read : Option WorkerRead
  maxEntries : Nat
  maxDepth : Nat
  deriving DecidableEq

/-- The values of `kind`. -/
def queryKinds : List (String × QueryKind) := [("literal", .literal), ("regex", .regex)]

/-- `globPatterns`. -/
def globPatterns (v : Json) : Option (List JsString) := array (boundedString 1 1024) 64 v

/-- `WorkerScopeSchema`. -/
def workerScopeSchema (v : Json) : Option WorkerScope := do
  let o ← strictObject ["includeGroups", "exclude", "hidden", "respectIgnore"] v
  let includeGroups ← required o "includeGroups" (array globPatterns 2)
  let exclude ← required o "exclude" (array (boundedString 1 1024) 128)
  let hidden ← required o "hidden" bool
  let respectIgnore ← required o "respectIgnore" bool
  return { includeGroups, exclude, hidden, respectIgnore }

/-- The `read` member of `WorkerRequestSchema`. -/
def workerReadSchema (v : Json) : Option WorkerRead := do
  let o ← strictObject ["path", "range", "expectedFileSha256"] v
  let path ← required o "path" pathString
  let range ← required o "range" rangeSchema
  let expectedFileSha256 ← optional o "expectedFileSha256" digestSchema
  return { path, range, expectedFileSha256 }

/-- `WorkerRequestSchema.omit({ v: true, id: true })`; the id is the caller's. -/
def workerRequestSchema (id : JsString) (v : Json) : Option WorkerRequest := do
  let o ← strictObject ["pattern", "kind", "caseSensitive", "maxMatches", "maxFileBytes",
    "responseBytes", "deadlineMs", "scope", "validateScopeOnly", "read", "maxEntries", "maxDepth"] v
  let pattern ← required o "pattern" (boundedString 1 8192)
  let kind ← required o "kind" (choice queryKinds)
  let caseSensitive ← required o "caseSensitive" bool
  let maxMatches ← required o "maxMatches" (int 1 1000)
  let maxFileBytes ← required o "maxFileBytes" (int 1 16777216)
  let responseBytes ← required o "responseBytes" (int 2048 FRAME_CAP)
  let deadlineMs ← required o "deadlineMs" (int 1 30000)
  let scope ← optional o "scope" workerScopeSchema
  let validateScopeOnly ← optional o "validateScopeOnly" bool
  let read ← optional o "read" workerReadSchema
  let maxEntries ← required o "maxEntries" (int 1 100000)
  let maxDepth ← required o "maxDepth" (int 1 64)
  return {
    id := id, pattern, kind, caseSensitive, maxMatches, maxFileBytes, responseBytes, deadlineMs,
    scope, validateScopeOnly, read, maxEntries, maxDepth }

/-! ## §3 — hello and responses. -/

/-- `WorkerReadySchema`: what is kept of a hello. -/
structure WorkerReady where
  pid : Nat
  rootDev : JsString
  rootIno : JsString
  deriving DecidableEq

/-- `WorkerReadySchema`. -/
def workerReadySchema (v : Json) : Option WorkerReady := do
  let o ← strictObject ["v", "status", "pid", "matcher", "rootDev", "rootIno"] v
  let _ ← required o "v" (int 1 1)
  let _ ← required o "status" (choice [("ready", ())])
  let pid ← required o "pid" (int 1 MAX_SAFE_INTEGER)
  let _ ← required o "matcher" (choice [("grep-regex-0.1.14", ())])
  let rootDev ← required o "rootDev" fun v => (string v).filter isDecimal
  let rootIno ← required o "rootIno" fun v => (string v).filter isDecimal
  return { pid, rootDev, rootIno }

/-- `WorkerCodeSchema`. -/
def workerCodes : List (String × Code) := [("INVALID_REQUEST", .invalidRequest),
  ("REGEX_INVALID", .regexInvalid), ("MATCH_ENCODING", .matchEncoding),
  ("READ_FAILED", .readFailed), ("SOURCE_MUTATED", .sourceMutated), ("DEADLINE", .deadline),
  ("LIMIT_REACHED", .limitReached), ("BYTE_LIMIT", .byteLimit), ("ENTRY_LIMIT", .entryLimit),
  ("DEPTH_LIMIT", .depthLimit), ("POLICY_CHANGED", .policyChanged),
  ("OUT_OF_SCOPE", .outOfScope), ("REVISION_MISMATCH", .revisionMismatch)]

/-- The `excerpt` of `WorkerHitSchema`. -/
structure WorkerExcerpt where
  range : Range
  text : JsString
  truncated : Bool
  deriving DecidableEq

/-- `WorkerHitSchema`. -/
structure WorkerHit where
  path : JsString
  fileSha256 : JsString
  range : Range
  excerpt : WorkerExcerpt
  deriving DecidableEq

/-- The `ok` branch of `WorkerResponseSchema`; `elapsedMs` is kept as the JSON number it is. -/
structure WorkerSuccess where
  id : JsString
  coverage : Coverage
  reasons : List Code
  hits : List WorkerHit
  counts : Counts
  policySnapshotHash : JsString
  elapsedMs : JsonNumber
  deriving DecidableEq

/-- `WorkerResponseSchema`. -/
inductive WorkerResponse where
  | error (id : JsString) (code : Code)
  | ok (success : WorkerSuccess)
  deriving DecidableEq

/-- The `id` that both branches have. -/
def WorkerResponse.id : WorkerResponse → JsString
  | error id _ => id
  | ok success => success.id

/-- `natural`. -/
def natural : Json → Option Nat := int 0 MAX_SAFE_INTEGER

/-- The `excerpt` of `WorkerHitSchema`, read. -/
def excerptSchema (v : Json) : Option WorkerExcerpt := do
  let o ← strictObject ["range", "text", "truncated"] v
  let range ← required o "range" rangeSchema
  let text ← required o "text" (boundedString 0 4096)
  let truncated ← required o "truncated" bool
  return { range, text, truncated }

/-- `WorkerHitSchema`. -/
def workerHitSchema (v : Json) : Option WorkerHit := do
  let o ← strictObject ["path", "fileSha256", "range", "excerpt"] v
  let path ← required o "path" pathString
  let fileSha256 ← required o "fileSha256" digestSchema
  let range ← required o "range" rangeSchema
  let excerpt ← required o "excerpt" excerptSchema
  return { path, fileSha256, range, excerpt }

/-- The `counts` of `WorkerResponseSchema`. -/
def countsSchema (v : Json) : Option Counts := do
  let o ← strictObject ["visited", "searched", "excluded", "failed", "bytesRead"] v
  let visited ← required o "visited" natural
  let searched ← required o "searched" natural
  let excluded ← required o "excluded" natural
  let failed ← required o "failed" natural
  let bytesRead ← required o "bytesRead" natural
  return { visited, searched, excluded, failed, bytesRead }

/-- The values of `coverage`. -/
def coverages : List (String × Coverage) := [("complete", .complete), ("partial", .incomplete)]

/-- The `error` branch of `WorkerResponseSchema`. -/
def workerErrorSchema (v : Json) : Option WorkerResponse := do
  let o ← strictObject ["v", "id", "status", "code"] v
  let _ ← required o "v" (int 1 1)
  let id ← required o "id" (boundedString 1 128)
  let _ ← required o "status" (choice [("error", ())])
  let code ← required o "code" (choice workerCodes)
  return .error id code

/-- The `ok` branch of `WorkerResponseSchema`. -/
def workerSuccessSchema (v : Json) : Option WorkerResponse := do
  let o ← strictObject ["v", "id", "status", "coverage", "reasons", "matches", "counts",
    "policySnapshotHash", "elapsedMs", "matcherVersion"] v
  let _ ← required o "v" (int 1 1)
  let id ← required o "id" (boundedString 1 128)
  let _ ← required o "status" (choice [("ok", ())])
  let coverage ← required o "coverage" (choice coverages)
  let reasons ← required o "reasons" (array (choice workerCodes) 14)
  let hits ← required o "matches" (array workerHitSchema 1000)
  let counts ← required o "counts" countsSchema
  let policySnapshotHash ← required o "policySnapshotHash" digestSchema
  let elapsedMs ← required o "elapsedMs" nonNegative
  let _ ← required o "matcherVersion" (choice [("grep-regex-0.1.14", ())])
  return .ok { id, coverage, reasons, hits, counts, policySnapshotHash, elapsedMs }

/-- `WorkerResponseSchema`, discriminated by `status`. -/
def workerResponseSchema (v : Json) : Option WorkerResponse :=
  match workerErrorSchema v with
  | some r => some r
  | none => workerSuccessSchema v

/-- The per-hit part of `validateWorkerResponse`. -/
def hitInvariants (request : WorkerRequest) (h : WorkerHit) : Bool :=
  h.range.start ≤ h.range.stop && h.range.stop ≤ request.maxFileBytes
    && h.excerpt.range.start == h.range.start && h.range.start ≤ h.excerpt.range.stop
    && h.excerpt.range.stop ≤ h.range.stop
    && isWellFormed h.excerpt.text && byteLength h.excerpt.text ≤ 4096
    && byteLength h.excerpt.text + h.excerpt.range.start == h.excerpt.range.stop
    && h.excerpt.truncated == decide (h.excerpt.range.stop < h.range.stop)

/-- The part of `validateWorkerResponse` behind the schema that is about a success. -/
def successInvariants (request : WorkerRequest) (s : WorkerSuccess) : Bool :=
  s.hits.length ≤ request.maxMatches && s.counts.visited ≤ request.maxEntries
    && s.counts.searched ≤ s.counts.visited
    && s.counts.bytesRead ≤ s.counts.searched * request.maxFileBytes
    && decide s.reasons.Nodup
    && (s.coverage == .complete) == s.reasons.isEmpty
    && !(s.coverage == .complete && s.counts.failed > 0)
    && s.hits.all (hitInvariants request)

/-- `validateWorkerResponse`; `none` is a thrown error. -/
def validateWorkerResponse (message : Json) (request : WorkerRequest) (byteLength : Nat) :
    Option WorkerResponse :=
  match workerResponseSchema message with
  | none => none
  | some response =>
      if response.id ≠ request.id || byteLength > request.responseBytes then none
      else
        match response with
        | .error .. => some response
        | .ok success => if successInvariants request success then some response else none

end JevGrep.Client
