/-
# `JevGrep.Worker.Plan` — what a search of a tree that stays as it is should come to.

Over a fixed tree a walk is a list of steps, known before it starts: directories entered, entries counted,
entries excluded, files searched. A step changes the `Ledger`, which is the walk's state without the
system and the rules, and may stop the walk. `JevGrep.Worker.Follow` shows that the source does this.

* §1 steps and plans; §2 the ledger; §3 the outcome; §4 what a plan keeps of the records.
-/
import JevGrep.Worker.Snapshot

namespace JevGrep.Worker

open JevGrep.Lib
open Exec (Keeps)

/-! ## §1 — steps and plans. -/

/-- One thing that a walk does. -/
inductive Step where
  /-- A directory below the depth limit. -/
  | tooDeep
  /-- A directory entered, with its two ignore files. -/
  | enter (dir : Str) (gitignore ignore : Option Bytes)
  /-- A directory with an ignore file that does not load. -/
  | broken
  | visited
  | excluded
  /-- A file captured. -/
  | file (path : Str) (bytes : Bytes)
  deriving DecidableEq

instance decidableAccepted (engine : Engine) : ∀ (builder : Gitignore) (lines : List Str),
    Decidable (Accepted engine builder lines)
  | _, [] => .isTrue trivial
  | builder, line :: lines =>
      have := decidableAccepted engine { builder with lines := builder.lines ++ [line] } lines
      inferInstanceAs (Decidable (_ ∧ _))

/-- An ignore file of the tree that loads: it is absent, or a text that compiles. -/
structure PolicyValid (engine : Engine) (tree : Node) (dir name : Str) : Prop
    extends Compiles engine dir (tree.policy (child dir name)) where
  found : tree.lookup (child dir name) = none ∨ (tree.policy (child dir name)).isSome = true

theorem isText_of_readable {node : Node} {limit : Nat} {bytes : Bytes} (h : node.readable limit = some bytes) :
    isText bytes = true := by
  cases node with
  | dir entries => cases h
  | other => cases h
  | file content =>
    rw [Node.readable] at h
    split at h
    case isTrue hread => exact Option.some.inj h ▸ hread.2
    case isFalse => cases h

theorem decode_policy {tree : Node} {path : Str} {bytes : Bytes} (h : tree.policy path = some bytes) :
    (Utf8.decode bytes).isSome = true := by
  obtain ⟨node, -, hread⟩ := Option.bind_eq_some_iff.1 h
  have htext := isText_of_readable hread
  rw [isText, Bool.and_eq_true] at htext
  exact htext.2

theorem policyValid_iff {engine : Engine} {tree : Node} {dir name : Str} :
    PolicyValid engine tree dir name ↔
      ((tree.lookup (child dir name)).isNone = true ∨ (tree.policy (child dir name)).isSome = true) ∧
      Accepted engine (gitignoreOf dir none) (linesOf (tree.policy (child dir name))) ∧
      engine.ignoreBuild (gitignoreOf dir (tree.policy (child dir name))) = true := by
  constructor
  · intro h
    exact ⟨h.found.imp_left Option.isNone_iff_eq_none.2, h.lines, h.built⟩
  · rintro ⟨hfound, hlines, hbuilt⟩
    exact {
      found := hfound.imp_left Option.isNone_iff_eq_none.1
      lines := hlines
      built := hbuilt
      text := fun _ => decode_policy }

instance (engine : Engine) (tree : Node) (dir name : Str) : Decidable (PolicyValid engine tree dir name) :=
  decidable_of_iff _ policyValid_iff.symm

section Plan

variable (engine : Engine) (filter : Filter) (r : Request) (tree : Node)

/-- The rules of every directory of the tree. -/
def Node.rules (tree : Node) : Rules := fun dir => some (tree.compiled dir)

/-- The path passes the scope under the rules of the tree. -/
def inScope (path : Str) (directory : Bool) : Bool :=
  filter.allowsUnder engine tree.rules path directory

/-- The steps of a file in scope. -/
def fileSteps (path : Str) (node : Node) : List Step :=
  if r.read.any (·.path ≠ path) then []
  else
    match node.readable r.maxFileBytes with
    | some bytes => [.file path bytes]
    | none => [.excluded]

/-- The steps of an entry that is opened. `below` is the plan one level down. -/
def nodeSteps (below : Node → Str → List Step) (path : Str) (node : Node) : List Step :=
  if inScope engine filter tree path (node.fileType == .directory) then
    match node with
    | .dir _ => below node path
    | .file _ => fileSteps r path node
    | .other => [.excluded]
  else [.excluded]

/-- The steps of an entry that was counted. -/
def nameSteps (below : Node → Str → List Step) (dir : Str) (entry : DirName × Node) : List Step :=
  match Utf8.decode entry.1.bytes with
  | none => [.excluded]
  | some name =>
      if !validPath (child dir name) || filter.excludedPath (child dir name) then [.excluded]
      else if aside r (child dir name) then []
      else nodeSteps engine filter r tree below (child dir name) entry.2

/-- The steps of an entry. -/
def entrySteps (below : Node → Str → List Step) (dir : Str) (entry : DirName × Node) : List Step :=
  .visited :: nameSteps engine filter r tree below dir entry

/-- The steps of entering a directory. -/
def enterSteps (dir : Str) : List Step :=
  if filter.respectIgnore then
    if PolicyValid engine tree dir GITIGNORE ∧ PolicyValid engine tree dir IGNORE then
      [.enter dir (tree.policy (child dir GITIGNORE)) (tree.policy (child dir IGNORE))]
    else [.broken]
  else []

/-- The steps of a walk of `node` at `dir` with `levels` levels left. -/
def plan : Nat → Node → Str → List Step
  | 0, _, _ => [.tooDeep]
  | levels + 1, .dir entries, dir =>
      enterSteps engine filter tree dir ++
        entries.flatMap (entrySteps engine filter r tree (plan levels) dir)
  | _ + 1, _, _ => []

theorem plan_dir (levels : Nat) (entries : List (DirName × Node)) (dir : Str) :
    plan engine filter r tree (levels + 1) (.dir entries) dir =
      enterSteps engine filter tree dir ++
        entries.flatMap (entrySteps engine filter r tree (plan engine filter r tree levels) dir) := rfl

end Plan

/-- The steps of a search of the tree. -/
abbrev planOf (engine : Engine) (scope : Scope) (r : Request) (tree : Node) : List Step :=
  plan engine scope.toFilter r tree (r.maxDepth + 1) tree []

/-! ## §2 — the ledger. -/

/-- Why a plan stops. -/
inductive Stop where
  /-- An ignore file does not load. -/
  | broken
  | entryLimit | limitReached | byteLimit | matchEncoding | revisionMismatch | invalidRequest
  deriving DecidableEq, Repr

/-- The code the worker has for it. -/
def Stop.code : Stop → Option Code
  | .broken => none
  | .entryLimit => some .entryLimit
  | .limitReached => some .limitReached
  | .byteLimit => some .byteLimit
  | .matchEncoding => some .matchEncoding
  | .revisionMismatch => some .revisionMismatch
  | .invalidRequest => some .invalidRequest

/-- What a scope has recorded of ignore files. -/
structure Records where
  observations : List (Str × Option Bytes) := []
  policyBytes : Nat := 0
  policyLines : Nat := 0

/-- The state of a walk, without the system and the rules. -/
structure Ledger where
  records : Records
  result : Success
  usedBytes : Nat

/-- What a step does. -/
abbrev Entry : Type := Exec Ledger Stop Unit

namespace Records

/-- An ignore file recorded and paid for. -/
def add (path : Str) (bytes : Option Bytes) (records : Records) : Records where
  observations := observe path bytes records.observations
  policyBytes := records.policyBytes + bytesIn bytes
  policyLines := records.policyLines + linesIn bytes

/-- An ignore file recorded, unless it takes the policies over a limit. -/
def load (path : Str) : Option Bytes → Exec Records Stop Unit
  | none => .modify (add path none)
  | some content => do
      let records ← .get
      if records.policyBytes + content.length > 1048576 then do
        .modify fun s => { s with policyBytes := s.policyBytes + content.length }
        .fail .entryLimit
      else if records.policyLines + linesIn (some content) > 4096 then do
        .modify fun s => { s with policyBytes := s.policyBytes + content.length, policyLines := 4097 }
        .fail .entryLimit
      else .modify (add path (some content))

/-- Both ignore files of a directory go into the records. -/
def enter (dir : Str) (gitignore ignore : Option Bytes) : Exec Records Stop Unit := do
  let records ← .get
  if records.observations.length ≥ 4096 then .fail .entryLimit
  else
    load (child dir GITIGNORE) gitignore
    load (child dir IGNORE) ignore

end Records

namespace Ledger

/-- One entry more. -/
def visit (r : Request) : Entry := do
  let l ← .get
  if l.result.counts.visited = r.maxEntries then .fail .entryLimit
  else .modify fun l => { l with result := l.result.visited }

/-- A hit, and its bytes. -/
def push (hit : Hit) (l : Ledger) : Ledger := { l with result := l.result.push hit }

def charge (size : Nat) (l : Ledger) : Ledger := { l with usedBytes := l.usedBytes + size }

/-- A hit is kept if the response has room. -/
def pay (r : Request) (hit : Hit) : Entry := do
  let l ← .get
  if l.usedBytes + hit.size > r.responseBytes then .fail .byteLimit
  else .modify fun l => (l.charge hit.size).push hit

/-- A hit is kept if both budgets have room. -/
def keep (r : Request) (hit : Hit) : Entry := do
  let l ← .get
  if l.result.hits.length = r.maxMatches then .fail .limitReached
  else pay r hit

/-- The matches of a file, up to the first without room. -/
def keepAll (r : Request) (path digest : Str) (bytes : Bytes) : List (Nat × Nat) → Entry
  | [] => pure ()
  | (start, stop) :: rest =>
      if phantom bytes start then keepAll r path digest bytes rest
      else if isCharBoundary bytes start && isCharBoundary bytes stop then do
        keep r (matchHit path digest bytes start stop)
        keepAll r path digest bytes rest
      else .fail .matchEncoding

/-- The one hit of a read. -/
def read (r : Request) (path digest : Str) (bytes : Bytes) (read : ReadRequest) : Entry := do
  let l ← .get
  if read.expectedFileSha256.any (· ≠ digest) then .fail .revisionMismatch
  else if read.range.stop > bytes.length
      || !isCharBoundary bytes read.range.start || !isCharBoundary bytes read.range.stop then
    .fail .invalidRequest
  else if l.usedBytes + (readHit path digest bytes read.range).size > r.responseBytes then
    .fail .byteLimit
  else .modify (push (readHit path digest bytes read.range))

section Perform

variable (engine : Engine) (matcher : Bytes → List (Nat × Nat)) (r : Request)

/-- The matches of a captured file are kept. -/
def find (path : Str) (bytes : Bytes) : Entry :=
  if bytes.isEmpty then pure ()
  else keepAll r path (hex (engine.sha256 bytes)) bytes (matcher bytes)

/-- A captured file is read, or its matches are kept. -/
def ask (path : Str) (bytes : Bytes) : Option ReadRequest → Entry
  | some request => read r path (hex (engine.sha256 bytes)) bytes request
  | none => find engine matcher r path bytes

/-- A captured file is searched, or read. -/
def search (path : Str) (bytes : Bytes) : Entry := do
  .modify fun l => { l with result := l.result.searched bytes }
  ask engine matcher r path bytes r.read

/-- What a step does to the ledger. -/
def perform : Step → Entry
  | .tooDeep => .modify fun l => { l with result := l.result.issue .depthLimit }
  | .enter dir gitignore ignore =>
      .onPart Ledger.records (fun records l => { l with records }) (Records.enter dir gitignore ignore)
  | .broken => .fail .broken
  | .visited => visit r
  | .excluded => .modify fun l => { l with result := l.result.excluded }
  | .file path bytes => search engine matcher r path bytes

/-- Steps in order, up to the first that stops. -/
def performAll : List Step → Entry
  | [] => pure ()
  | step :: steps => do
      perform engine matcher r step
      performAll steps

theorem performAll_cons (step : Step) (steps : List Step) :
    performAll engine matcher r (step :: steps) =
      (perform engine matcher r step >>= fun _ => performAll engine matcher r steps) := rfl

theorem performAll_one (step : Step) :
    performAll engine matcher r [step] = perform engine matcher r step := Exec.bind_unit _

theorem performAll_append : ∀ a b : List Step, performAll engine matcher r (a ++ b)
    = (performAll engine matcher r a >>= fun _ => performAll engine matcher r b)
  | [], _ => rfl
  | step :: a, b => by
      show (perform engine matcher r step >>= fun _ => performAll engine matcher r (a ++ b))
        = (perform engine matcher r step >>= fun _ => performAll engine matcher r a) >>= _
      rw [performAll_append a b, Exec.assoc]

end Perform

end Ledger

/-! ## §3 — the outcome. -/

namespace Ledger

section Traverse

variable (engine : Engine) (matcher : Bytes → List (Nat × Nat)) (r : Request)

/-- What a stop comes to: an error, or an issue. -/
def sorted (stop : Stop) : Entry :=
  match stop.code with
  | none => .fail stop
  | some code =>
      if r.read.isSome || code == .matchEncoding then .fail stop
      else .modify fun l => { l with result := l.result.issue code }

/-- How a plan ended, with its stop sorted. -/
def settle : Except Stop Unit → Entry
  | .ok () => pure ()
  | .error stop => sorted r stop

/-- A plan carried out. -/
def traverse (steps : List Step) : Entry := do
  let result ← .attempt (if r.validateScopeOnly then pure () else performAll engine matcher r steps)
  settle r result

/-- What a search returns in the end, but for the time it took. -/
def answer (l : Ledger) : Except Code Success :=
  if r.read.isSome && !l.result.reasons.isEmpty then .error (l.result.reasons.headD .invalidRequest)
  else if r.read.isSome && l.result.hits.isEmpty then .error .outOfScope
  else .ok { l.result with
    policySnapshotHash := snapshotHash engine l.records.observations
    elapsedMs := .nat 0 }

end Traverse

/-- The ledger a search starts with. -/
def start (r : Request) : Ledger where
  records := {}
  result := Success.empty r.id
  usedBytes := 2048

end Ledger

/-- What the plan of a tree comes to; nothing is said where an ignore file does not load. -/
def carriedOut (engine : Engine) (matcher : Bytes → List (Nat × Nat)) (filter : Filter) (r : Request)
    (tree : Node) (l : Ledger) : Option (Except Code Success) :=
  match Ledger.traverse engine matcher r (plan engine filter r tree (r.maxDepth + 1) tree []) l with
  | (.ok (), l) => some (l.answer engine r)
  | (.error stop, _) => stop.code.map .error

/-- What a search of the tree comes to. -/
def planned (engine : Engine) (r : Request) (tree : Node) : Option (Except Code Success) :=
  match validate r with
  | .error code => some (.error code)
  | .ok () =>
      match engine.matcher r.pattern r.kind r.caseSensitive with
      | none => some (.error .regexInvalid)
      | some matcher =>
          match Scope.new engine r.scope with
          | .error code => some (.error code)
          | .ok scope => carriedOut engine matcher scope.toFilter r tree (Ledger.start r)

/-- A success without the time it took. -/
def Success.timeless (success : Success) : Success := { success with elapsedMs := .nat 0 }

/-! ## §4 — what a plan keeps of the records. -/

section Planned

variable {engine : Engine} {matcher : Bytes → List (Nat × Nat)} {filter : Filter} {r : Request} {tree : Node}

/-- An entry is a file, a directory that is walked, an exclusion, or nothing. -/
theorem nameSteps_cases {below : Node → Str → List Step} {dir : Str} (entry : DirName × Node) :
    nameSteps engine filter r tree below dir entry ∈ [[], [.excluded]] ∨
    (∃ name bytes, Utf8.decode entry.1.bytes = some name ∧ validPath (child dir name) = true ∧
      ¬r.read.any (·.path ≠ child dir name) = true ∧
      nameSteps engine filter r tree below dir entry = [.file (child dir name) bytes]) ∨
    ∃ name, Utf8.decode entry.1.bytes = some name ∧ validPath (child dir name) = true ∧
      nameSteps engine filter r tree below dir entry = below entry.2 (child dir name) := by
  unfold nameSteps
  split
  · exact .inl (List.mem_cons_of_mem _ List.mem_cons_self)
  case h_2 name hname =>
    split
    case isTrue => exact .inl (List.mem_cons_of_mem _ List.mem_cons_self)
    case isFalse hvalid =>
      split
      case isTrue => exact .inl List.mem_cons_self
      case isFalse =>
        have hpath : validPath (child dir name) = true := by
          simp only [Bool.or_eq_true, Bool.not_eq_true', not_or, Bool.not_eq_false] at hvalid
          exact hvalid.1
        unfold nodeSteps
        split
        case isTrue =>
          split
          case h_1 => exact .inr (.inr ⟨name, hname, hpath, rfl⟩)
          case h_2 content _ =>
            unfold fileSteps
            split
            case isTrue => exact .inl List.mem_cons_self
            case isFalse hread =>
              split
              · exact .inr (.inl ⟨name, _, hname, hpath, hread, rfl⟩)
              · exact .inl (List.mem_cons_of_mem _ List.mem_cons_self)
          case h_3 => exact .inl (List.mem_cons_of_mem _ List.mem_cons_self)
        case isFalse => exact .inl (List.mem_cons_of_mem _ List.mem_cons_self)

/-- What holds of every kind of step holds of a plan. -/
theorem plan_forall {P : Step → Prop} (hdeep : P .tooDeep) (hvisited : P .visited) (hexcluded : P .excluded)
    (hfile : ∀ path bytes, ¬r.read.any (·.path ≠ path) = true → P (.file path bytes))
    (henter : ∀ dir, ∀ step ∈ enterSteps engine filter tree dir, P step) :
    ∀ (levels : Nat) (node : Node) (dir : Str), ∀ step ∈ plan engine filter r tree levels node dir, P step
  | 0, _, _, step, h => by
      obtain rfl := List.mem_singleton.1 h
      exact hdeep
  | levels + 1, .file _, _, step, h => absurd h List.not_mem_nil
  | levels + 1, .other, _, step, h => absurd h List.not_mem_nil
  | levels + 1, .dir entries, dir, step, h => by
      rw [plan_dir] at h
      rcases List.mem_append.1 h with h | h
      · exact henter dir step h
      · obtain ⟨entry, -, h⟩ := List.mem_flatMap.1 h
        rcases List.mem_cons.1 h with rfl | h
        · exact hvisited
        rcases nameSteps_cases entry with hnone | ⟨name, bytes, -, -, hread, hone⟩ | ⟨name, -, -, hwalk⟩
        · rcases List.mem_pair.1 hnone with hnone | hnone
          · rw [hnone] at h
            exact absurd h List.not_mem_nil
          · rw [hnone] at h
            obtain rfl := List.mem_singleton.1 h
            exact hexcluded
        · rw [hone] at h
          obtain rfl := List.mem_singleton.1 h
          exact hfile _ bytes hread
        · rw [hwalk] at h
          exact plan_forall hdeep hvisited hexcluded hfile henter levels _ _ step h

namespace Ledger

theorem keeps_performAll {I : Ledger → Prop} : ∀ {steps : List Step},
    (∀ step ∈ steps, Keeps I (perform engine matcher r step)) → Keeps I (performAll engine matcher r steps)
  | [], _ => Keeps.pure _
  | _ :: _, h => Keeps.bind (h _ List.mem_cons_self) fun _ =>
      keeps_performAll fun step' h' => h step' (List.mem_cons_of_mem _ h')

section Records

variable {I : Records → Prop} (K : Records → Coverage → List Code → Prop)

theorem keeps_keep (hit : Hit) : Keeps (fun l => K l.records l.result.coverage l.result.reasons) (keep r hit) :=
  Keeps.get_bind fun _ => Exec.Triple.ite (fun _ => Keeps.fail _) fun _ => Keeps.get_bind fun _ =>
    Exec.Triple.ite (fun _ => Keeps.fail _) fun _ => Keeps.modify fun _ h => h

theorem keeps_keepAll (path digest : Str) (bytes : Bytes) : ∀ found : List (Nat × Nat),
    Keeps (fun l => K l.records l.result.coverage l.result.reasons) (keepAll r path digest bytes found)
  | [] => Keeps.pure _
  | (start, stop) :: rest => by
      refine Exec.Triple.ite (fun _ => keeps_keepAll path digest bytes rest) fun _ => ?_
      refine Exec.Triple.ite (fun _ => ?_) fun _ => Keeps.fail _
      exact Keeps.bind (keeps_keep K _) fun _ => keeps_keepAll path digest bytes rest

/-- A captured file leaves the records, the coverage and the reasons as they are. -/
theorem keeps_search (path : Str) (bytes : Bytes) :
    Keeps (fun l => K l.records l.result.coverage l.result.reasons)
      (search engine matcher r path bytes) := by
  refine Keeps.bind (Keeps.modify fun _ h => h) fun _ => ?_
  unfold ask find
  split
  · refine Keeps.get_bind fun _ => Exec.Triple.ite (fun _ => Keeps.fail _) fun _ => ?_
    refine Exec.Triple.ite (fun _ => Keeps.fail _) fun _ => ?_
    exact Exec.Triple.ite (fun _ => Keeps.fail _) fun _ => Keeps.modify fun _ h => h
  · exact Exec.Triple.ite (fun _ => Keeps.pure _) fun _ => keeps_keepAll K path _ bytes _

theorem keeps_enter {dir : Str} {gitignore ignore : Option Bytes}
    (h : Keeps I (Records.enter dir gitignore ignore)) :
    Keeps (fun l => I l.records) (perform engine matcher r (.enter dir gitignore ignore)) := by
  have hlift : Keeps (fun l => I l.records) (.onPart Ledger.records (fun records l => { l with records })
      (Records.enter dir gitignore ignore) : Entry) :=
    Exec.Triple.onPart h (fun _ hl => hl) (fun _ _ _ _ h => h) fun _ _ _ _ h => h
  exact hlift

/-- What entering keeps, a plan keeps of the records. -/
theorem keeps_plan (henter : ∀ dir, PolicyValid engine tree dir GITIGNORE → PolicyValid engine tree dir IGNORE →
      Keeps I (Records.enter dir (tree.policy (child dir GITIGNORE)) (tree.policy (child dir IGNORE))))
    (levels : Nat) (node : Node) (dir : Str) :
    Keeps (fun l => I l.records) (performAll engine matcher r (plan engine filter r tree levels node dir)) := by
  have hissue : Keeps (fun l => I l.records) (perform engine matcher r .tooDeep) := Keeps.modify fun _ h => h
  have hexcluded : Keeps (fun l => I l.records) (perform engine matcher r .excluded) := Keeps.modify fun _ h => h
  have hfile : ∀ path bytes, Keeps (fun l => I l.records) (perform engine matcher r (.file path bytes)) :=
    keeps_search fun records _ _ => I records
  refine keeps_performAll (plan_forall hissue ?_ hexcluded (fun path bytes _ => hfile path bytes) ?_ levels node dir)
  · exact Keeps.get_bind fun _ => Exec.Triple.ite (fun _ => Keeps.fail _) fun _ => Keeps.modify fun _ h => h
  · intro dir step h
    unfold enterSteps at h
    split at h
    · split at h
      case isTrue hvalid =>
        obtain rfl := List.mem_singleton.1 h
        exact keeps_enter (henter dir hvalid.1 hvalid.2)
      case isFalse =>
        obtain rfl := List.mem_singleton.1 h
        exact Keeps.fail _
    · exact absurd h List.not_mem_nil

theorem keeps_traverse {steps : List Step}
    (h : Keeps (fun l => I l.records) (performAll engine matcher r steps)) :
    Keeps (fun l => I l.records) (traverse engine matcher r steps) := by
  refine Keeps.attempt_bind (Exec.Triple.ite (fun _ => Keeps.pure _) fun _ => h) (fun _ => Keeps.pure _) ?_
  intro stop
  show Keeps _ (sorted r stop)
  unfold sorted
  split
  · exact Keeps.fail _
  · exact Exec.Triple.ite (fun _ => Keeps.fail _) fun _ => Keeps.modify fun _ h => h

end Records

end Ledger

/-- The ignore files on record are those of the tree. -/
def Genuine (tree : Node) (records : Records) : Prop :=
  ∀ o ∈ records.observations, o.2 = tree.policy o.1 ∧
    (tree.lookup o.1 = none ∨ (tree.policy o.1).isSome = true)

theorem genuine_load {dir name : Str} (hv : PolicyValid engine tree dir name) :
    Keeps (Genuine tree) (Records.load (child dir name) (tree.policy (child dir name))) := by
  have hadd : ∀ records, Genuine tree records →
      Genuine tree (records.add (child dir name) (tree.policy (child dir name))) := by
    intro records hrecords o ho
    rcases mem_of_mem_observe ho with rfl | ho
    · exact ⟨rfl, hv.found⟩
    · exact hrecords o ho
  unfold Records.load
  split
  case h_1 hnone => exact Keeps.modify fun records h => hnone ▸ hadd records h
  case h_2 content hsome =>
    refine Keeps.get_bind fun _ => Exec.Triple.ite (fun _ => ?_) fun _ => Exec.Triple.ite (fun _ => ?_) fun _ => ?_
    · exact Keeps.bind (Keeps.modify fun _ h => h) fun _ => Keeps.fail _
    · exact Keeps.bind (Keeps.modify fun _ h => h) fun _ => Keeps.fail _
    · exact Keeps.modify fun records h => hsome ▸ hadd records h

/-- A plan records what the tree has. -/
theorem genuine_traverse (levels : Nat) (node : Node) (dir : Str) :
    Keeps (fun l => Genuine tree l.records)
      (Ledger.traverse engine matcher r (plan engine filter r tree levels node dir)) := by
  refine Ledger.keeps_traverse (Ledger.keeps_plan (fun dir hgitignore hignore => ?_) levels node dir)
  refine Keeps.get_bind fun _ => Exec.Triple.ite (fun _ => Keeps.fail _) fun _ => ?_
  exact Keeps.bind (genuine_load hgitignore) fun _ => genuine_load hignore

end Planned

end JevGrep.Worker
