/-
# `JevGrep.Worker.Wire` — how the worker reads requests.

`run` in `native/worker/src/main.rs` up to the call of `search`: a frame is a big-endian length and a
body, the body is decoded by `serde_json::from_slice` into the derived `Deserialize` of `Request`. A
derived struct reads an object, unknown and repeated members refused, or an array with the fields in
order; a `String` is read from a JSON string without a lone surrogate.
-/
import JevGrep.Lib.Utf8
import JevGrep.Lib.Schema
import JevGrep.Worker.Types

namespace JevGrep.Worker

open JevGrep.Lib JevGrep.Lib.Schema

/-! ## §1 — derived `Deserialize`. -/

section Readers

variable {α : Type}

/-- `String`. -/
def deString : Json → Option Str
  | .str s => Utf16.decode s
  | _ => none

/-- The values of a `u64`, and of a `usize`. -/
def U64 : Nat := 18446744073709551616

/-- An unsigned integer type with `values` values. -/
def deUnsigned (values : Nat) : Json → Option Nat
  | .nat n => if n < values then some n else none
  | _ => none

/-- `Vec<T>`. -/
def deVec (item : Json → Option α) : Json → Option (List α)
  | .arr items => items.mapM item
  | _ => none

/-- `Option<T>`. -/
def deOption (item : Json → Option α) : Json → Option (Option α)
  | .null => some none
  | v => (item v).map some

/-- What a struct's text has for a field. -/
inductive Field where
  | given (v : Json)
  /-- The object has no such member. -/
  | missing
  /-- The array ends before the field. -/
  | beyond

/-- The fields of a struct with `deny_unknown_fields`. -/
def structFields (names : List String) : Json → Option (String → Field)
  | .obj members =>
      if members.all (fun m => names.any fun name => units name == m.1)
          ∧ (members.map (·.1)).Nodup then
        some fun name =>
          match members.find? (·.1 == units name) with
          | some m => .given m.2
          | none => .missing
      else none
  | .arr items =>
      if items.length ≤ names.length then
        some fun name =>
          match items[names.idxOf name]? with
          | some v => .given v
          | none => .beyond
      else none
  | _ => none

/-- A field that must be there. -/
def Field.need (f : Field) (read : Json → Option α) : Option α :=
  match f with
  | .given v => read v
  | _ => none

/-- A field with `#[serde(default)]`. -/
def Field.withDefault (f : Field) (default : α) (read : Json → Option α) : Option α :=
  match f with
  | .given v => read v
  | _ => some default

/-- An `Option<T>` field without `#[serde(default)]`. -/
def Field.option (f : Field) (read : Json → Option α) : Option (Option α) :=
  match f with
  | .given v => deOption read v
  | .missing => some none
  | .beyond => none

end Readers

/-- `QueryKind`, by name or as an object that maps the name to `null`. -/
def deKind : Json → Option QueryKind
  | .obj [(name, .null)] => kindNamed name
  | .str name => kindNamed name
  | _ => none
where
  kindNamed (name : List UInt16) : Option QueryKind :=
    if name = units "literal" then some .literal
    else if name = units "regex" then some .regex
    else none

/-- `Range`. -/
def deRange (v : Json) : Option Range := do
  let field ← structFields ["start", "end"] v
  let start ← (field "start").need (deUnsigned U64)
  let stop ← (field "end").need (deUnsigned U64)
  return { start, stop }

/-- `ReadRequest`. -/
def deReadRequest (v : Json) : Option ReadRequest := do
  let field ← structFields ["path", "range", "expectedFileSha256"] v
  let path ← (field "path").need deString
  let range ← (field "range").need deRange
  let expectedFileSha256 ← (field "expectedFileSha256").option deString
  return { path, range, expectedFileSha256 }

/-- `ScopeInput`. -/
def deScopeInput (v : Json) : Option ScopeInput := do
  let field ← structFields ["includeGroups", "exclude", "hidden", "respectIgnore"] v
  let includeGroups ← (field "includeGroups").withDefault [] (deVec (deVec deString))
  let exclude ← (field "exclude").withDefault [] (deVec deString)
  let hidden ← (field "hidden").withDefault false bool
  let respectIgnore ← (field "respectIgnore").withDefault false bool
  return { includeGroups, exclude, hidden, respectIgnore }

/-- `Request`. -/
def deRequest (v : Json) : Option Request := do
  let field ← structFields ["v", "id", "pattern", "kind", "caseSensitive", "maxMatches",
    "maxFileBytes", "responseBytes", "deadlineMs", "maxEntries", "maxDepth", "scope",
    "validateScopeOnly", "read"] v
  let version ← (field "v").need (deUnsigned 256)
  let id ← (field "id").need deString
  let pattern ← (field "pattern").need deString
  let kind ← (field "kind").need deKind
  let caseSensitive ← (field "caseSensitive").need bool
  let maxMatches ← (field "maxMatches").need (deUnsigned U64)
  let maxFileBytes ← (field "maxFileBytes").need (deUnsigned U64)
  let responseBytes ← (field "responseBytes").need (deUnsigned U64)
  let deadlineMs ← (field "deadlineMs").need (deUnsigned U64)
  let maxEntries ← (field "maxEntries").need (deUnsigned U64)
  let maxDepth ← (field "maxDepth").need (deUnsigned U64)
  let scope ← (field "scope").withDefault {} deScopeInput
  let validateScopeOnly ← (field "validateScopeOnly").withDefault false bool
  let read ← (field "read").withDefault none (deOption deReadRequest)
  return {
    v := version, id, pattern, kind, caseSensitive, maxMatches, maxFileBytes, responseBytes,
    deadlineMs, maxEntries, maxDepth, scope, validateScopeOnly, read }

/-- `serde_json::from_slice::<Request>`. -/
def fromSlice (body : Bytes) : Option Request :=
  (Utf8.decode body).bind Json.parse |>.bind deRequest

/-! ## §2 — frames. -/

/-- `u32::from_be_bytes`. -/
def fromBeBytes (a b c d : UInt8) : Nat :=
  a.toNat * 16777216 + b.toNat * 65536 + c.toNat * 256 + d.toNat

/-- One round of `run`'s loop up to the call of `search`. -/
inductive Received where
  /-- Clean end of input. -/
  | ended
  /-- The worker exits: a cut frame, or a length outside the cap. -/
  | broken
  /-- Answered with the id `invalid`. -/
  | invalid (rest : Bytes)
  | request (r : Request) (rest : Bytes)
  deriving DecidableEq

/-- What `run` makes of its input: a frame, its end, or neither. -/
def receive : Bytes → Received
  | [] => .ended
  | a :: b :: c :: d :: input =>
      let size := fromBeBytes a b c d
      if size = 0 ∨ size > FRAME_CAP then .broken
      else if input.length < size then .broken
      else
        match fromSlice (input.take size) with
        | none => .invalid (input.drop size)
        | some r => .request r (input.drop size)
  | _ => .broken

/-- The id of the reply to a request: `search` copies it, a failure cuts it to 128 characters. -/
def replyId (r : Request) : Except Code Success → Str
  | .ok success => success.id
  | .error _ => r.id.take 128

end JevGrep.Worker
