/-
# `JevGrep.Worker.Reply` — how the worker writes a reply.

The derived `Serialize` of `Success` and `Failure` and the frame around them, from
`native/worker/src/main.rs`: a reply longer than the cap is not written, the worker exits.
-/
import JevGrep.Worker.Search

namespace JevGrep.Worker

open JevGrep.Lib

/-! ## §1 — derived `Serialize`. -/

/-- `rename_all = "SCREAMING_SNAKE_CASE"`. -/
def Code.name : Code → String
  | .invalidRequest => "INVALID_REQUEST"
  | .regexInvalid => "REGEX_INVALID"
  | .matchEncoding => "MATCH_ENCODING"
  | .readFailed => "READ_FAILED"
  | .sourceMutated => "SOURCE_MUTATED"
  | .deadline => "DEADLINE"
  | .limitReached => "LIMIT_REACHED"
  | .byteLimit => "BYTE_LIMIT"
  | .entryLimit => "ENTRY_LIMIT"
  | .depthLimit => "DEPTH_LIMIT"
  | .policyChanged => "POLICY_CHANGED"
  | .outOfScope => "OUT_OF_SCOPE"
  | .revisionMismatch => "REVISION_MISMATCH"

/-- A code as serde writes it. -/
def Code.json (c : Code) : Json := .str (Schema.units c.name)

/-- The names of `Coverage`. -/
def Coverage.name : Coverage → String
  | .complete => "complete"
  | .incomplete => "partial"

/-- The derived `Serialize` of the replies. -/
def Counts.json (c : Counts) : Json :=
  structJson [("visited", .nat c.visited), ("searched", .nat c.searched),
    ("excluded", .nat c.excluded), ("failed", .nat c.failed), ("bytesRead", .nat c.bytesRead)]

/-- `Success`, in the order of its fields. -/
def Success.json (s : Success) : Json :=
  structJson [("v", .nat s.v), ("id", strJson s.id), ("status", .str (Schema.units "ok")),
    ("coverage", .str (Schema.units s.coverage.name)), ("reasons", .arr (s.reasons.map Code.json)),
    ("matches", .arr (s.hits.map Hit.json)), ("counts", s.counts.json),
    ("elapsedMs", s.elapsedMs.json), ("policySnapshotHash", strJson s.policySnapshotHash),
    ("matcherVersion", strJson s.matcherVersion)]

/-- `Failure`, in the order of its fields. -/
def Failure.json (f : Failure) : Json :=
  structJson [("v", .nat f.v), ("id", strJson f.id), ("status", .str (Schema.units "error")),
    ("code", f.code.json)]

/-! ## §2 — frames. -/

/-- `serde_json::to_vec`. -/
def toVec (v : Json) : Bytes := Utf8.encode (Json.print v)

/-- `u32::to_be_bytes`. -/
def toBeBytes (n : Nat) : Bytes :=
  [UInt8.ofNat (n / 16777216), UInt8.ofNat (n / 65536 % 256), UInt8.ofNat (n / 256 % 256),
    UInt8.ofNat (n % 256)]

/-- `write_frame`; `none` is the `response frame cap` error. -/
def writeFrame (v : Json) : Option Bytes :=
  if (toVec v).length > FRAME_CAP then none else some (toBeBytes (toVec v).length ++ toVec v)

/-- What `run` writes for the outcome of `search`. -/
def reply (r : Request) : Except Code Success → Json
  | .ok success => success.json
  | .error code => Failure.json { v := 1, id := r.id.take 128, code }

/-- What `run` writes for a body that is no request. -/
def invalidReply : Json := Failure.json { v := 1, id := "invalid".toList, code := .invalidRequest }

theorem length_toVec (v : Json) : (toVec v).length = Json.size v := by
  rw [toVec, Utf8.length_encode, Json.utf8Len_print]

end JevGrep.Worker
