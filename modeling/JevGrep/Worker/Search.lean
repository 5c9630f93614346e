/-
# `JevGrep.Worker.Search` — the walk, the file search and `search`.

`native/worker/src/main.rs` from `Search` to `search`. What the source keeps in the mutable fields of
`Search` is `State`; its other fields are `Job`. The walk goes down one level per directory, so it is a
recursion on `max_depth + 1 - depth`: no level left is `depth > max_depth`. A directory stream and the
matches of a file are folded item by item, as the loop and the `find_iter` callback see them.

* §1 the state; §2 a hit and its size; §3 `search_file`; §4 `walk`; §5 `search`.
-/
import JevGrep.Lib.Schema
import JevGrep.Worker.Scope

namespace JevGrep.Worker

open JevGrep.Lib

/-! ## §1 — the state. -/

/-- The fields of `Search` that stay as they are. -/
structure Job (σ φ : Type) where
  engine : Engine
  os : Os σ φ
  root : φ
  request : Request
  deadline : Nat
  matcher : Bytes → List (Nat × Nat)

/-- The fields of `Search` that change, and the world. -/
structure State (σ φ : Type) where
  world : World σ φ
  scope : Scope
  result : Success
  usedBytes : Nat

/-- A part of the worker that also changes the result. -/
abbrev Work (σ φ α : Type) : Type := Exec (State σ φ) Code α

namespace Work

variable {σ φ α : Type}

/-- A call of the system inside the walk. -/
def io (m : Io σ φ α) : Work σ φ α :=
  .onPart State.world (fun w s => { s with world := w }) m

/-- `Scope::enter` inside the walk. -/
def entering (m : Enter σ φ α) : Work σ φ α :=
  .onPart (fun s => { world := s.world, scope := s.scope })
    (fun e s => { s with world := e.world, scope := e.scope }) m

end Work

namespace Success

/-- `issue`. -/
def issue (code : Code) (s : Success) : Success :=
  { s with
    reasons := if code ∈ s.reasons then s.reasons else s.reasons ++ [code]
    coverage := .incomplete }

/-- `counts.visited += 1`, and so on below. -/
def visited (s : Success) : Success := { s with counts.visited := s.counts.visited + 1 }

def excluded (s : Success) : Success := { s with counts.excluded := s.counts.excluded + 1 }

def failed (s : Success) : Success := { s with counts.failed := s.counts.failed + 1 }

/-- A file of these bytes was captured. -/
def searched (bytes : Bytes) (s : Success) : Success :=
  { s with
    counts.searched := s.counts.searched + 1
    counts.bytesRead := s.counts.bytesRead + bytes.length }

/-- `matches.push(hit)`. -/
def push (hit : Hit) (s : Success) : Success := { s with hits := s.hits ++ [hit] }

end Success

namespace State

variable {σ φ : Type}

/-- An event for the log. -/
def note (e : Event φ) (s : State σ φ) : State σ φ := { s with world := s.world.note e }

/-- The same on the result of the state. -/
def issue (code : Code) (s : State σ φ) : State σ φ := { s with result := s.result.issue code }

def visited (s : State σ φ) : State σ φ := { s with result := s.result.visited }

def excluded (s : State σ φ) : State σ φ := { s with result := s.result.excluded }

def failed (s : State σ φ) : State σ φ := { s with result := s.result.failed }

/-- The file at a path was captured. -/
def searched (path : Str) (bytes : Bytes) (s : State σ φ) : State σ φ :=
  { s with world := s.world.note (.searched path), result := s.result.searched bytes }

def push (hit : Hit) (s : State σ φ) : State σ φ := { s with result := s.result.push hit }

/-- `used_bytes += size`. -/
def charge (size : Nat) (s : State σ φ) : State σ φ := { s with usedBytes := s.usedBytes + size }

end State

/-! ## §2 — a hit and its size. -/

/-- A Rust string as JSON has it. -/
def strJson (s : Str) : Json := .str (Utf16.encode s)

/-- The derived `Serialize` of a struct. -/
def structJson (fields : List (String × Json)) : Json := .obj (fields.map fun f => (Schema.units f.1, f.2))

/-- What serde writes of a `Range`. -/
def Range.json (r : Range) : Json := structJson [("start", .nat r.start), ("end", .nat r.stop)]

/-- What serde writes of an `Excerpt`. -/
def Excerpt.json (e : Excerpt) : Json :=
  structJson [("range", e.range.json), ("text", strJson e.text), ("truncated", .bool e.truncated)]

/-- What serde writes of a `Hit`. -/
def Hit.json (h : Hit) : Json :=
  structJson [("path", strJson h.path), ("fileSha256", strJson h.fileSha256), ("range", h.range.json),
    ("excerpt", h.excerpt.json)]

/-- `serde_json::to_vec(&hit)` with its comma: the bytes a hit takes in a response. -/
def Hit.size (h : Hit) : Nat := Json.size h.json + 1

/-- `str::is_char_boundary` on the bytes of a text. -/
def isCharBoundary (bytes : Bytes) (index : Nat) : Bool :=
  index == 0 || match bytes[index]? with
    | some b => !Utf8.isContinuation b
    | none => index == bytes.length

/-- `text[start..stop]`. -/
def slice (bytes : Bytes) (start stop : Nat) : Str :=
  (Utf8.decode ((bytes.take stop).drop start)).getD []

/-- The loop that moves `excerpt_end` back to a boundary. -/
def boundaryBelow (bytes : Bytes) : Nat → Nat
  | 0 => 0
  | n + 1 => if isCharBoundary bytes (n + 1) then n + 1 else boundaryBelow bytes n

/-- The hit of a match. -/
def matchHit (path : Str) (digest : Str) (bytes : Bytes) (start stop : Nat) : Hit :=
  let excerptEnd := boundaryBelow bytes (min stop (start + 4096))
  { path, fileSha256 := digest, range := ⟨start, stop⟩
    excerpt := ⟨⟨start, excerptEnd⟩, slice bytes start excerptEnd, decide (excerptEnd ≠ stop)⟩ }

/-- A match at the end of a file whose last byte is LF: no phantom line. -/
def phantom (bytes : Bytes) (start : Nat) : Bool :=
  start == bytes.length && bytes.getLast? == some 0x0a

/-- Every match of a file but phantoms, as hits. -/
def fileHits (engine : Engine) (matcher : Bytes → List (Nat × Nat)) (path : Str) (bytes : Bytes) :
    List Hit :=
  if bytes.isEmpty then []
  else
    ((matcher bytes).filter fun m => !phantom bytes m.1).map fun m =>
      matchHit path (hex (engine.sha256 bytes)) bytes m.1 m.2

/-- The hit of a read. -/
def readHit (path : Str) (digest : Str) (bytes : Bytes) (range : Range) : Hit where
  path := path
  fileSha256 := digest
  range := range
  excerpt := ⟨range, slice bytes range.start range.stop, false⟩

/-! ## §3 — `search_file`. -/

section Files

variable {σ φ : Type} (job : Job σ φ)

/-- `expired(self.deadline)`. -/
def inTime : Work σ φ Unit := .io (expired job.os job.deadline)

/-- A hit within the budget is kept, and paid for. -/
def keepHit (hit : Hit) : Work σ φ Unit := do
  let s ← .get
  if s.usedBytes + hit.size > job.request.responseBytes then .fail .byteLimit
  else .modify fun s => (s.charge hit.size).push hit

/-- The `find_iter` callback on a match that is not a phantom. -/
def report (path digest : Str) (bytes : Bytes) (start stop : Nat) : Work σ φ Unit := do
  let s ← .get
  if !(isCharBoundary bytes start && isCharBoundary bytes stop) then .fail .matchEncoding
  else if s.result.hits.length = job.request.maxMatches then .fail .limitReached
  else keepHit job (matchHit path digest bytes start stop)

/-- `find_iter` with its callback, and the check of `stopped` behind it. -/
def findIter (path digest : Str) (bytes : Bytes) : List (Nat × Nat) → Work σ φ Unit
  | [] => pure ()
  | (start, stop) :: rest => do
      inTime job
      if phantom bytes start then findIter path digest bytes rest
      else
        report job path digest bytes start stop
        findIter path digest bytes rest

/-- The branch of a read request. -/
def readRange (path digest : Str) (bytes : Bytes) (read : ReadRequest) : Work σ φ Unit := do
  let s ← .get
  if read.expectedFileSha256.any (· ≠ digest) then .fail .revisionMismatch
  else if read.range.stop > bytes.length
      || !isCharBoundary bytes read.range.start || !isCharBoundary bytes read.range.stop then
    .fail .invalidRequest
  else if s.usedBytes + (readHit path digest bytes read.range).size > job.request.responseBytes then
    .fail .byteLimit
  else .modify (·.push (readHit path digest bytes read.range))

/-- `search_file` on captured bytes. Captured bytes are UTF-8, so the source's second `from_utf8`
does not fail. -/
def searchBytes (path : Str) (bytes : Bytes) : Work σ φ Unit := do
  inTime job
  .modify (·.searched path bytes)
  let digest := hex (job.engine.sha256 bytes)
  match job.request.read with
  | some read => readRange job path digest bytes read
  | none =>
      if bytes.isEmpty then pure ()
      else findIter job path digest bytes (job.matcher bytes)

/-- The capture of a file, resolved again once when it changed underneath. -/
def captureTwice (fd : φ) (path : Str) : Io σ φ (Option Bytes) := do
  match ← .attempt (capture job.os job.deadline fd job.request.maxFileBytes) with
  | .error .sourceMutated => do
      let fresh ← anchor job.os path
      capture job.os job.deadline fresh job.request.maxFileBytes
  | .ok content => pure content
  | .error code => .fail code

/-- `search_file`. -/
def searchFile (fd : φ) (path : Str) : Work σ φ Unit := do
  if job.request.read.any (·.path ≠ path) then pure ()
  else
    match ← .attempt (Work.io (captureTwice job fd path)) with
    | .ok (some bytes) => searchBytes job path bytes
    | .ok none => .modify (·.excluded)
    | .error .deadline => .fail .deadline
    | .error code => .modify fun s => s.failed.issue code

/-! ## §4 — `walk`. -/

/-- An entry a read request does not lead to. -/
def aside (r : Request) (path : Str) : Bool :=
  r.read.any fun read => path ≠ read.path && !(path ++ ['/']).isPrefixOf read.path

/-- An entry in scope, by its kind. `descend` is the walk one level down. -/
def visitAllowed (descend : φ → Str → Work σ φ Unit) (path : Str) (node : φ) :
    FileType → Work σ φ Unit
  | .directory => do
      match ← .attempt (descend node path) with
      | .ok () => pure ()
      | .error .readFailed => .modify fun s => s.failed.issue .readFailed
      | .error code => .fail code
  | .regularFile => searchFile job node path
  | .other => .modify (·.excluded)

/-- An entry that was opened and inspected. -/
def visitNode (descend : φ → Str → Work σ φ Unit) (path : Str) (node : φ) (metadata : Stat) :
    Work σ φ Unit := do
  let directory := metadata.fileType == .directory
  let s ← .get
  .modify (·.note (.checked path directory s.scope.rules))
  if s.scope.allows job.engine path directory then visitAllowed job descend path node metadata.fileType
  else .modify (·.excluded)

/-- An entry whose path is valid and leads somewhere. -/
def visitPath (descend : φ → Str → Work σ φ Unit) (path : Str) : Work σ φ Unit := do
  match ← .attempt (Work.io (anchor job.os path)) with
  | .error code => .modify fun s => s.failed.issue code
  | .ok node =>
      match ← .attempt (Work.io (fstat job.os node)) with
      | .error _ => .modify fun s => s.failed.issue .readFailed
      | .ok metadata => visitNode job descend path node metadata

/-- An entry that was counted. -/
def visitName (descend : φ → Str → Work σ φ Unit) (dir : Str) (n : DirName) : Work σ φ Unit := do
  match Utf8.decode n.bytes with
  | none => .modify (·.excluded)
  | some name =>
      let path := child dir name
      let s ← .get
      if !validPath path || s.scope.toFilter.excludedPath path then .modify (·.excluded)
      else if aside job.request path then pure ()
      else visitPath job descend path

/-- `b"."` and `b".."`. -/
def isDots (n : DirName) : Bool := n.bytes == [0x2e] || n.bytes == [0x2e, 0x2e]

/-- The body of the loop over a directory, behind the deadline check. -/
def visit (descend : φ → Str → Work σ φ Unit) (dir : Str) (n : DirName) : Work σ φ Unit :=
  if isDots n then pure ()
  else do
    let s ← .get
    if s.result.counts.visited = job.request.maxEntries then .fail .entryLimit
    else
      .modify (·.visited)
      visitName job descend dir n

/-- The loop over a directory. -/
def entries (descend : φ → Str → Work σ φ Unit) (dir : Str) : Stream σ → Work σ φ Unit
  | .done => .modify (·.note (.entry dir .done))
  | .failed => do
      .modify (·.note (.entry dir .failed))
      inTime job
      .fail .readFailed
  | .name n rest => do
      .modify (·.note (.entry dir (.name n)))
      inTime job
      visit job descend dir n
      let s ← .get
      entries descend dir (rest s.world.os)

/-- `Dir::new(reopen(fd, true)?)`. -/
def openDir (fd : φ) : Io σ φ (Stream σ) := do
  let readable ← reopen job.os fd true
  orReadFailed (← job.os.doDir readable)

/-- `walk` with `max_depth + 1 - depth` levels left. -/
def walk : Nat → φ → Str → Work σ φ Unit
  | 0, _, _ => do
      inTime job
      .modify (·.issue .depthLimit)
  | levels + 1, fd, dir => do
      inTime job
      .entering (enter job.engine job.os job.deadline dir)
      let stream ← .io (openDir job fd)
      entries job (walk levels) dir stream

/-! ## §5 — `search`. -/

/-- The walk of `search`, its error sorted into an abort or an issue. -/
def traverse : Work σ φ Unit := do
  match ← .attempt (if job.request.validateScopeOnly then pure ()
      else walk job (job.request.maxDepth + 1) job.root []) with
  | .ok () => pure ()
  | .error code => do
      let s ← .get
      if job.request.read.isSome || code == .regexInvalid || code == .matchEncoding
          || (code == .deadline && s.result.hits.isEmpty) then
        .fail code
      else
        .modify fun s =>
          (if code = .readFailed ∨ code = .sourceMutated then s.failed else s).issue code

/-- The second look at the ignore files. -/
def revalidate : Work σ φ Unit := do
  let s ← .get
  match ← .attempt (Work.io (verify job.os job.deadline s.scope.observations)) with
  | .ok () => pure ()
  | .error code => .modify (·.issue code)

/-- `search` from the walk on; `started` is `begin`. -/
def conclude (started : Nat) : Work σ φ Success := do
  traverse job
  revalidate job
  let s ← .get
  if job.request.read.isSome && !s.result.reasons.isEmpty then
    .fail (s.result.reasons.headD .invalidRequest)
  else if job.request.read.isSome && s.result.hits.isEmpty then .fail .outOfScope
  else
    let ended ← .io job.os.instant
    pure { s.result with
      policySnapshotHash := snapshotHash job.engine s.scope.observations
      elapsedMs := job.engine.elapsedMs (ended - started) }

end Files

/-- `Success` before the walk. -/
def Success.empty (id : Str) : Success where
  v := 1
  id := id
  coverage := .complete
  reasons := []
  hits := []
  counts := {}
  elapsedMs := .nat 0
  policySnapshotHash := []
  matcherVersion := MATCHER

/-- `?` on a value that is at hand. -/
def liftExcept {σ ε α : Type} : Except ε α → Exec σ ε α
  | .ok a => pure a
  | .error e => .fail e

/-- `search`. -/
def search {σ φ : Type} (engine : Engine) (os : Os σ φ) (root : φ) (r : Request) : Io σ φ Success := do
  liftExcept (validate r)
  let started ← os.instant
  match engine.matcher r.pattern r.kind r.caseSensitive with
  | none => .fail .regexInvalid
  | some matcher =>
      let scope ← liftExcept (Scope.new engine r.scope)
      let job : Job σ φ :=
        { engine, os, root, request := r, deadline := started + r.deadlineMs * 1000000, matcher }
      fun w =>
        let out := conclude job started
          { world := w, scope, result := Success.empty r.id, usedBytes := 2048 }
        (out.1, out.2.world)

/-! ## §6 — what every part of the walk keeps. -/

section Stable

open Exec (Keeps Triple)

variable {σ φ α : Type} {job : Job σ φ}

/-- A property of the state that no single change of the worker breaks. -/
structure Stable (I : State σ φ → Prop) : Prop where
  seen : ∀ w c s, I s → I { s with world := w, scope := c }
  visited : ∀ s, I s → I s.visited
  excluded : ∀ s, I s → I s.excluded
  failed : ∀ s, I s → I s.failed
  issue : ∀ code s, I s → I (s.issue code)
  searched : ∀ path bytes s, I s → I (s.searched path bytes)
  push : ∀ hit s, I s → I (s.push hit)
  charge : ∀ size s, I s → I (s.charge size)

namespace Stable

variable {I : State σ φ → Prop}

variable (h : Stable I)

include h

theorem io (m : Io σ φ α) : Keeps I (Work.io m) :=
  Triple.onPart (Triple.anyhow m) (fun _ _ => trivial) (fun s _ w hs _ => h.seen w s.scope s hs)
    fun s _ w hs _ => h.seen w s.scope s hs

theorem entering (m : Enter σ φ α) : Keeps I (Work.entering m) :=
  Triple.onPart (Triple.anyhow m) (fun _ _ => trivial) (fun s _ e hs _ => h.seen e.world e.scope s hs)
    fun s _ e hs _ => h.seen e.world e.scope s hs

theorem note (e : Event φ) (s : State σ φ) (hs : I s) : I (s.note e) :=
  h.seen (s.world.note e) s.scope s hs

theorem keeps_keepHit (hit : Hit) : Keeps I (keepHit job hit) := by
  refine Keeps.get_bind fun s => ?_
  refine Triple.ite (fun _ => Keeps.fail _) fun _ => ?_
  exact Keeps.modify fun s hs => h.push _ _ (h.charge _ _ hs)

theorem keeps_report (path digest : Str) (bytes : Bytes) (start stop : Nat) :
    Keeps I (report job path digest bytes start stop) := by
  refine Keeps.get_bind fun s => ?_
  refine Triple.ite (fun _ => Keeps.fail _) fun _ => ?_
  exact Triple.ite (fun _ => Keeps.fail _) fun _ => h.keeps_keepHit _

theorem keeps_findIter (path digest : Str) (bytes : Bytes) : ∀ found : List (Nat × Nat),
    Keeps I (findIter job path digest bytes found)
  | [] => Keeps.pure _
  | (start, stop) :: rest => by
      refine Keeps.bind (h.io _) fun _ => ?_
      refine Triple.ite (fun _ => keeps_findIter path digest bytes rest) fun _ => ?_
      exact Keeps.bind (h.keeps_report _ _ _ _ _) fun _ => keeps_findIter path digest bytes rest

theorem keeps_readRange (path digest : Str) (bytes : Bytes) (read : ReadRequest) :
    Keeps I (readRange job path digest bytes read) := by
  refine Keeps.get_bind fun s => ?_
  refine Triple.ite (fun _ => Keeps.fail _) fun _ => ?_
  refine Triple.ite (fun _ => Keeps.fail _) fun _ => ?_
  refine Triple.ite (fun _ => Keeps.fail _) fun _ => ?_
  exact Keeps.modify fun s hs => h.push _ _ hs

theorem keeps_searchBytes (path : Str) (bytes : Bytes) : Keeps I (searchBytes job path bytes) := by
  refine Keeps.bind (h.io _) fun _ => Keeps.bind (Keeps.modify (h.searched _ _)) fun _ => ?_
  show Keeps I (match job.request.read with
    | some read => _
    | none => _)
  split
  · exact h.keeps_readRange _ _ _ _
  · exact Triple.ite (fun _ => Keeps.pure _) fun _ => h.keeps_findIter _ _ _ _

theorem keeps_searchFile (fd : φ) (path : Str) : Keeps I (searchFile job fd path) := by
  refine Triple.ite (fun _ => Keeps.pure _) fun _ => Keeps.attempt_bind (h.io _) ?_ ?_
  · rintro (_ | bytes)
    · exact Keeps.modify h.excluded
    · exact h.keeps_searchBytes path bytes
  · rintro code
    cases code
    case deadline => exact Keeps.fail _
    all_goals exact Keeps.modify fun s hs => h.issue _ _ (h.failed _ hs)

section Descend

variable {descend : φ → Str → Work σ φ Unit} (hd : ∀ fd dir, Keeps I (descend fd dir))

include hd

theorem keeps_visitAllowed (path : Str) (node : φ) : ∀ kind : FileType,
    Keeps I (visitAllowed job descend path node kind)
  | .directory => by
      refine Keeps.attempt_bind (hd _ _) (fun _ => Keeps.pure _) fun code => ?_
      cases code
      case readFailed => exact Keeps.modify fun s hs => h.issue _ _ (h.failed _ hs)
      all_goals exact Keeps.fail _
  | .regularFile => h.keeps_searchFile node path
  | .other => Keeps.modify h.excluded

theorem keeps_visitNode (path : Str) (node : φ) (metadata : Stat) :
    Keeps I (visitNode job descend path node metadata) := by
  refine Keeps.get_bind fun s => Keeps.bind (Keeps.modify (h.note _)) fun _ => ?_
  exact Triple.ite (fun _ => h.keeps_visitAllowed hd path node _) fun _ => Keeps.modify h.excluded

theorem keeps_visitPath (path : Str) : Keeps I (visitPath job descend path) := by
  refine Keeps.attempt_bind (h.io _) (fun node => ?_) fun code =>
    Keeps.modify fun s hs => h.issue _ _ (h.failed _ hs)
  exact Keeps.attempt_bind (h.io _) (fun metadata => h.keeps_visitNode hd path node metadata) fun _ =>
    Keeps.modify fun s hs => h.issue _ _ (h.failed _ hs)

theorem keeps_visitName (dir : Str) (n : DirName) : Keeps I (visitName job descend dir n) := by
  unfold visitName
  split
  · exact Keeps.modify h.excluded
  · refine Keeps.get_bind fun s => ?_
    refine Triple.ite (fun _ => Keeps.modify h.excluded) fun _ => ?_
    exact Triple.ite (fun _ => Keeps.pure _) fun _ => h.keeps_visitPath hd _

theorem keeps_visit (dir : Str) (n : DirName) : Keeps I (visit job descend dir n) := by
  refine Triple.ite (fun _ => Keeps.pure _) fun _ => Keeps.get_bind fun s => ?_
  refine Triple.ite (fun _ => Keeps.fail _) fun _ => ?_
  exact Keeps.bind (Keeps.modify h.visited) fun _ => h.keeps_visitName hd dir n

theorem keeps_entries (dir : Str) : ∀ stream : Stream σ, Keeps I (entries job descend dir stream)
  | .done => Keeps.modify (h.note _)
  | .failed => Keeps.bind (Keeps.modify (h.note _)) fun _ => Keeps.bind (h.io _) fun _ => Keeps.fail _
  | .name n rest =>
      Keeps.bind (Keeps.modify (h.note _)) fun _ => Keeps.bind (h.io _) fun _ =>
        Keeps.bind (h.keeps_visit hd dir n) fun _ => Keeps.get_bind fun s =>
          keeps_entries dir (rest s.world.os)

end Descend

/-- **What no single change breaks, a walk keeps**: however it ends. -/
theorem keeps_walk : ∀ (levels : Nat) (fd : φ) (dir : Str), Keeps I (walk job levels fd dir)
  | 0, _, _ => Keeps.bind (h.io _) fun _ => Keeps.modify (h.issue _)
  | levels + 1, _, dir =>
      Keeps.bind (h.io _) fun _ => Keeps.bind (h.entering _) fun _ => Keeps.bind (h.io _) fun _ =>
        h.keeps_entries (keeps_walk levels) dir _

end Stable

/-- A partial result stays partial. -/
theorem stable_incomplete : Stable fun s : State σ φ => s.result.coverage = .incomplete where
  seen _ _ _ h := h
  visited _ h := h
  excluded _ h := h
  failed _ h := h
  issue _ _ _ := rfl
  searched _ _ _ h := h
  push _ _ h := h
  charge _ _ h := h

theorem Coverage.eq_of_ne {c : Coverage} (h : c ≠ .incomplete) : c = .complete := by
  cases c
  · rfl
  · exact absurd rfl h

/-- What ends complete was complete. -/
theorem complete_before {m : Work σ φ α}
    (hm : Keeps (fun s : State σ φ => s.result.coverage = .incomplete) m) {s s' : State σ φ} {a : α}
    (h : m s = (.ok a, s')) (hc : s'.result.coverage = .complete) : s.result.coverage = .complete := by
  refine Coverage.eq_of_ne fun hi => ?_
  have := Triple.ok hm hi h
  rw [hc] at this
  cases this

end Stable

end JevGrep.Worker
