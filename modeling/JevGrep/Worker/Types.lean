/-
# `JevGrep.Worker.Types` — the native worker's data model and its request check.

The wire types of `native/worker/src/main.rs` and `scope.rs` in the order the source declares them,
with `valid_path` and `validate`. A Rust `str` is a list of scalar values and its `len()` is the
UTF-8 length; `usize`, `u64` and `u8` fields are natural numbers (the source compares and subtracts
them, and every subtraction is guarded).
-/
import JevGrep.Lib.Json
import Mathlib.Data.List.Infix

namespace JevGrep.Worker

open JevGrep.Lib (JsonNumber)
open JevGrep.Lib.Utf16 (utf8Len)

/-- A Rust string. -/
abbrev Str := List Char

/-- Captured file content. -/
abbrev Bytes := List UInt8

/-- `FRAME_CAP`. -/
def FRAME_CAP : Nat := 1048576

/-- `MATCHER`. -/
def MATCHER : Str := "grep-regex-0.1.14".toList

/-! ## §1 — wire types. -/

/-- `Code`. -/
inductive Code where
  | invalidRequest | regexInvalid | matchEncoding | readFailed | sourceMutated | deadline
  | limitReached | byteLimit | entryLimit | depthLimit | policyChanged | outOfScope
  | revisionMismatch
  deriving DecidableEq, Repr

/-- `QueryKind`. -/
inductive QueryKind where
  | literal | regex
  deriving DecidableEq, Repr

/-- `Range`; its `end` is a keyword. -/
structure Range where
  start : Nat
  stop : Nat
  deriving DecidableEq, Repr

/-- `ReadRequest`. -/
structure ReadRequest where
  path : Str
  range : Range
  expectedFileSha256 : Option Str
  deriving DecidableEq, Repr

/-- `scope.rs` `ScopeInput`; the `serde` default of every field is the field default here. -/
structure ScopeInput where
  includeGroups : List (List Str) := []
  exclude : List Str := []
  hidden : Bool := false
  respectIgnore : Bool := false
  deriving DecidableEq, Repr

/-- `Request`. -/
structure Request where
  v : Nat
  id : Str
  pattern : Str
  kind : QueryKind
  caseSensitive : Bool
  maxMatches : Nat
  maxFileBytes : Nat
  responseBytes : Nat
  deadlineMs : Nat
  maxEntries : Nat
  maxDepth : Nat
  scope : ScopeInput := {}
  validateScopeOnly : Bool := false
  read : Option ReadRequest := none
  deriving DecidableEq, Repr

/-- `Excerpt`. -/
structure Excerpt where
  range : Range
  text : Str
  truncated : Bool
  deriving DecidableEq, Repr

/-- `Hit`. -/
structure Hit where
  path : Str
  fileSha256 : Str
  range : Range
  excerpt : Excerpt
  deriving DecidableEq, Repr

/-- `Counts`. -/
structure Counts where
  visited : Nat := 0
  searched : Nat := 0
  excluded : Nat := 0
  failed : Nat := 0
  bytesRead : Nat := 0
  deriving DecidableEq, Repr

/-- The two values of `Success::coverage`, `"complete"` and `"partial"`. -/
inductive Coverage where
  | complete | incomplete
  deriving DecidableEq, Repr

/-- `elapsedMs` is the JSON number an `f64` is serialized to. -/
structure Success where
  v : Nat
  id : Str
  coverage : Coverage
  reasons : List Code
  hits : List Hit
  counts : Counts
  elapsedMs : JsonNumber
  policySnapshotHash : Str
  matcherVersion : Str
  deriving DecidableEq

/-- `Failure`. -/
structure Failure where
  v : Nat
  id : Str
  code : Code
  deriving DecidableEq, Repr

/-! ## §2 — the request check. -/

/-- `valid_path`. -/
def validPath (path : Str) : Bool :=
  !path.isEmpty
    && utf8Len path ≤ 4096
    && !path.any (fun c => c == '\x00' || c == '\r' || c == '\n' || c == '\\')
    && (path.splitOn '/').all fun s => !s.isEmpty && s != ['.'] && s != ['.', '.']

/-- The characters of a request id: `is_ascii_alphanumeric()` or one of `._-`. -/
def idChar (c : Char) : Bool := c.isAlphanum || c == '.' || c == '_' || c == '-'

/-- `str::contains` of a string. -/
def contains (text needle : Str) : Bool := decide (needle <:+: text)

/-- `validate`. -/
def validate (r : Request) : Except Code Unit :=
  if r.v ≠ 1
      || r.id.isEmpty
      || utf8Len r.id > 128
      || !r.id.all idChar
      || r.pattern.isEmpty
      || utf8Len r.pattern > 8192
      || r.pattern.any (fun c => c == '\x00' || c == '\r' || c == '\n')
      || !(1 ≤ r.maxMatches && r.maxMatches ≤ 1000)
      || !(1 ≤ r.maxFileBytes && r.maxFileBytes ≤ 16777216)
      || !(2048 ≤ r.responseBytes && r.responseBytes ≤ FRAME_CAP)
      || !(1 ≤ r.deadlineMs && r.deadlineMs ≤ 30000)
      || !(1 ≤ r.maxEntries && r.maxEntries ≤ 100000)
      || !(1 ≤ r.maxDepth && r.maxDepth ≤ 64) then
    .error .invalidRequest
  else do
    match r.read with
    | none => pure ()
    | some read =>
        if !validPath read.path || read.range.start > read.range.stop
            || read.range.stop > r.maxFileBytes then
          throw .invalidRequest
        if read.range.stop - read.range.start > 4096 then
          throw .byteLimit
    -- the prototype's blacklist: whole-buffer anchors and one spelling of a flag change
    if r.kind = .regex
        && (contains r.pattern "\\A".toList || contains r.pattern "\\z".toList
          || contains r.pattern "\\Z".toList || contains r.pattern "(?-".toList) then
      throw .regexInvalid

/-- What a request that `validate` accepts is known to be. -/
structure Valid (r : Request) : Prop where
  v : r.v = 1
  id_ne : r.id ≠ []
  id_length : utf8Len r.id ≤ 128
  id_chars : ∀ c ∈ r.id, idChar c = true
  maxMatches : 1 ≤ r.maxMatches ∧ r.maxMatches ≤ 1000
  maxFileBytes : 1 ≤ r.maxFileBytes ∧ r.maxFileBytes ≤ 16777216
  responseBytes : 2048 ≤ r.responseBytes ∧ r.responseBytes ≤ FRAME_CAP
  maxEntries : 1 ≤ r.maxEntries ∧ r.maxEntries ≤ 100000
  maxDepth : 1 ≤ r.maxDepth ∧ r.maxDepth ≤ 64
  read : ∀ read, r.read = some read → validPath read.path = true ∧ read.range.start ≤ read.range.stop
    ∧ read.range.stop ≤ r.maxFileBytes ∧ read.range.stop - read.range.start ≤ 4096

theorem validate_ok {r : Request} (h : validate r = .ok ()) : Valid r := by
  unfold validate at h
  split at h
  case isTrue => cases h
  case isFalse hfields =>
    simp only [ne_eq, Bool.or_eq_true, decide_eq_true_eq, List.isEmpty_iff, gt_iff_lt,
      Bool.not_eq_true', Bool.and_eq_false_iff, decide_eq_false_iff_not, not_or, Decidable.not_not,
      not_lt] at hfields
    obtain ⟨⟨⟨⟨⟨⟨⟨⟨⟨⟨⟨⟨hv, hid⟩, hlen⟩, hchars⟩, -⟩, -⟩, -⟩, hm⟩, hf⟩, hb⟩, hd⟩, he⟩, hdepth⟩ := hfields
    refine ⟨hv, hid, hlen, ?_, by omega, by omega, by omega, by omega, by omega, ?_⟩
    · simpa using hchars
    · intro read hread
      simp only [hread] at h
      by_cases hshape : (!validPath read.path || decide (read.range.start > read.range.stop)
          || decide (read.range.stop > r.maxFileBytes)) = true
      · rw [if_pos hshape] at h
        cases h
      · by_cases hlong : read.range.stop - read.range.start > 4096
        · rw [if_neg hshape, if_pos hlong] at h
          cases h
        · simp only [gt_iff_lt, Bool.or_eq_true, Bool.not_eq_true', decide_eq_true_eq, not_or,
            Bool.not_eq_false, not_lt] at hshape
          exact ⟨hshape.1.1, hshape.1.2, hshape.2, Nat.not_lt.1 hlong⟩

end JevGrep.Worker
