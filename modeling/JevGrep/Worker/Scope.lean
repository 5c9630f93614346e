/-
# `JevGrep.Worker.Scope` — which files a search may see.

`native/worker/src/scope.rs`: the globs of a request, the ignore files captured on the way down, the
precedence between them, and the second look at every captured file. Glob matching and the parsing of
ignore lines belong to the crates `globset` and `ignore` and come in through `Engine`.
-/
import JevGrep.Worker.Os
import Mathlib.Data.List.TakeWhile

namespace JevGrep.Worker

open JevGrep.Lib
open JevGrep.Lib.Utf16 (utf8Len)

/-! ## §1 — the crates. -/

/-- `ignore::Match`. -/
inductive Verdict where
  | none | ignore | whitelist
  deriving DecidableEq, Repr

/-- The crates the worker calls. A matcher gives the matches of `find_iter` in order; its error type
has no values. -/
structure Engine where
  /-- `RegexMatcherBuilder::build`. -/
  matcher : Str → QueryKind → Bool → Option (Bytes → List (Nat × Nat))
  /-- `GlobBuilder::build` of a pattern. -/
  globBuild : Str → Bool
  /-- `GlobSetBuilder::build`. -/
  globSetBuild : List Str → Bool
  /-- A glob matches a path. -/
  globMatch : Str → Str → Bool
  /-- `GitignoreBuilder::add_line`, given the lines so far. -/
  addLine : Gitignore → Str → Bool
  /-- `GitignoreBuilder::build`. -/
  ignoreBuild : Gitignore → Bool
  /-- `Gitignore::matched`. -/
  matched : Gitignore → Str → Bool → Verdict
  sha256 : Bytes → Bytes
  /-- `elapsed().as_secs_f64() * 1000.0` as it is serialized. -/
  elapsedMs : Nat → JsonNumber

/-! ## §2 — paths. -/

/-- `rsplit_once('/').map_or("", |(p, _)| p)`. -/
def parentOf (path : Str) : Str := ((path.reverse.dropWhile (· ≠ '/')).drop 1).reverse

/-- The path of `name` in the directory `prefix`. -/
def child (dir name : Str) : Str := if dir.isEmpty then name else dir ++ '/' :: name

/-- A directory and the directories it lies in, in at most `rounds` rounds of the loop of `allows`. -/
def upward : Nat → Str → List Str
  | 0, _ => []
  | rounds + 1, dir => dir :: if dir.isEmpty then [] else upward rounds (parentOf dir)

/-- A directory and the directories it lies in, up to the root: a parent is shorter. -/
def above (dir : Str) : List Str := upward (dir.length + 1) dir

/-- The directories the loop of `allows` visits, the deepest first. -/
def containing (path : Str) : List Str := above (parentOf path)

/-! ## §3 — `Scope`. -/

/-- A `GlobSet`, by its patterns. -/
abbrev GlobSet := List Str

/-- The fields of `Scope` that a request fixes. -/
structure Filter where
  groups : List GlobSet
  exclude : GlobSet
  hidden : Bool
  respectIgnore : Bool
  deriving DecidableEq, Repr

/-- `Scope`, with its request's part first. -/
structure Scope extends Filter where
  rules : Rules := fun _ => none
  /-- `BTreeMap<String, Option<Vec<u8>>>`: sorted by path. -/
  observations : List (Str × Option Bytes) := []
  policyBytes : Nat := 0
  policyLines : Nat := 0

/-- `GlobSet::is_match`. -/
def GlobSet.isMatch (engine : Engine) (globs : GlobSet) (path : Str) : Bool :=
  globs.any fun g => engine.globMatch g path

/-- The patterns `globs` refuses before it compiles them. -/
def badGlob (pattern : Str) : Bool :=
  pattern.isEmpty
    || utf8Len pattern > 1024
    || pattern.head? == some '/' || pattern.head? == some '!'
    || pattern.any (fun c => c == '\x00' || c == '\r' || c == '\n' || c == '\\')
    || (pattern.splitOn '/').any fun p => p == ['.'] || p == ['.', '.'] || p.isEmpty

/-- `globs`. -/
def globs (engine : Engine) (patterns : List Str) : Except Code GlobSet :=
  if patterns.length > 128 then .error .invalidRequest
  else if patterns.any (fun p => badGlob p || !engine.globBuild p) then .error .invalidRequest
  else if engine.globSetBuild patterns then .ok patterns
  else .error .invalidRequest

/-- `Scope::new`. -/
def Scope.new (engine : Engine) (input : ScopeInput) : Except Code Scope :=
  if input.includeGroups.length > 2 || input.includeGroups.any (fun g => g.length > 64) then
    .error .invalidRequest
  else do
    let groups ← input.includeGroups.mapM (globs engine)
    let exclude ← globs engine input.exclude
    return { groups, exclude, hidden := input.hidden, respectIgnore := input.respectIgnore }

/-- `excluded_path`. -/
def Filter.excludedPath (filter : Filter) (path : Str) : Bool :=
  (path.splitOn '/').any fun p =>
    p == ".jev-grep".toList || p == ".git".toList || (!filter.hidden && p.head? == some '.')

section Allows

variable (engine : Engine)

/-- The verdict of a directory's rules of one kind on a path. -/
def ruling (rules : Rules) (kind : Compiled → Gitignore) (path : Str) (directory : Bool) (dir : Str) :
    Option Bool :=
  match rules dir with
  | some compiled =>
      match engine.matched (kind compiled) path directory with
      | .ignore => some false
      | .whitelist => some true
      | .none => none
  | none => none

/-- The two loops of `allows` over the ignore rules: `.ignore` at every depth, then `.gitignore`. -/
def decision (rules : Rules) (path : Str) (directory : Bool) : Option Bool :=
  (containing path).findSome? (ruling engine rules (·.ignore) path directory) <|>
    (containing path).findSome? (ruling engine rules (·.gitignore) path directory)

/-- `Scope::allows`, given the rules loaded. -/
def Filter.allowsUnder (filter : Filter) (rules : Rules) (path : Str) (directory : Bool) : Bool :=
  if filter.exclude.isMatch engine path then false
  -- include globs select files; a directory on the way to one stays
  else if !directory && filter.groups.any (fun g => !g.isEmpty && !g.isMatch engine path) then false
  else if filter.respectIgnore then (decision engine rules path directory).getD true
  else true

/-- `Scope::allows`. -/
def Scope.allows (scope : Scope) (path : Str) (directory : Bool) : Bool :=
  scope.toFilter.allowsUnder engine scope.rules path directory

end Allows

/-- `BTreeMap::insert`. -/
def observe (path : Str) (bytes : Option Bytes) : List (Str × Option Bytes) → List (Str × Option Bytes)
  | [] => [(path, bytes)]
  | (p, b) :: rest =>
      if path = p then (path, bytes) :: rest
      else if path < p then (path, bytes) :: (p, b) :: rest
      else (p, b) :: observe path bytes rest

/-! ## §4 — ignore files. -/

/-- The names of the two ignore files. -/
def GITIGNORE : Str := ".gitignore".toList
def IGNORE : Str := ".ignore".toList

/-- `str::lines`: a line ends with LF or CR LF, and what follows the last LF is a line if not empty. -/
def strLines (text : Str) : List Str :=
  let parts := text.splitOn '\n'
  (parts.dropLast.map fun line => if line.getLast? = some '\r' then line.dropLast else line)
    ++ (parts.getLast?.filter (!·.isEmpty)).toList

/-- The lines of an ignore file as it was captured. -/
def linesOf (bytes : Option Bytes) : List Str := (bytes.bind Utf8.decode).elim [] strLines

/-- The rules of a directory's ignore file as it was captured. -/
def gitignoreOf (dir : Str) (bytes : Option Bytes) : Gitignore where
  root := if dir.isEmpty then ['.'] else dir
  lines := linesOf bytes

section Policies

variable {σ φ : Type} (engine : Engine) (os : Os σ φ) (deadline : Nat)

/-- The capture of an ignore file, once it is open. -/
def policyContent (fd : φ) : Io σ φ Bytes := do
  match ← .attempt (capture os deadline fd 65536) with
  | .ok (some bytes) => pure bytes
  | .ok none => .fail .readFailed
  | .error .sourceMutated => .fail .policyChanged
  | .error code => .fail code

/-- `policy_bytes`. -/
def policyBytes (path : Str) : Io σ φ (Option Bytes) := do
  expired os deadline
  match ← os.doOpenPolicy path with
  | .error .noent => pure none
  | .error .other => .fail .readFailed
  | .ok fd => do
      let bytes ← policyContent os deadline fd
      pure (some bytes)

/-- What `enter` works on. -/
structure Entering (σ φ : Type) where
  world : World σ φ
  scope : Scope

/-- `enter` and what it is made of. -/
abbrev Enter (σ φ α : Type) : Type := Exec (Entering σ φ) Code α

/-- A call of the system inside `enter`. -/
def Enter.io {α : Type} (m : Io σ φ α) : Enter σ φ α :=
  .onPart Entering.world (fun w s => { s with world := w }) m

/-- The lines of one ignore file, fed to the builder. -/
def addLines (builder : Gitignore) : List Str → Enter σ φ Gitignore
  | [] => pure builder
  | line :: lines => do
      Enter.io (expired os deadline)
      .modify fun s => { s with scope.policyLines := s.scope.policyLines + 1 }
      let s ← .get
      if s.scope.policyLines > 4096 then .fail .entryLimit
      else if engine.addLine builder line then
        addLines { builder with lines := builder.lines ++ [line] } lines
      else .fail .readFailed

/-- The content of one ignore file. -/
def addContent (builder : Gitignore) (bytes : Bytes) : Enter σ φ Gitignore := do
  .modify fun s => { s with scope.policyBytes := s.scope.policyBytes + bytes.length }
  let s ← .get
  if s.scope.policyBytes > 1048576 then .fail .entryLimit
  else
    match Utf8.decode bytes with
    | none => .fail .readFailed
    | some text => addLines engine os deadline builder (strLines text)

/-- The builder of an ignore file that was found, or not. -/
def addFound (builder : Gitignore) : Option Bytes → Enter σ φ Gitignore
  | none => pure builder
  | some bytes => addContent engine os deadline builder bytes

/-- One round of the loop of `enter` over the two names. -/
def load (dir name : Str) : Enter σ φ Gitignore := do
  let path := child dir name
  let bytes ← Enter.io (policyBytes os deadline path)
  .modify fun s => { s with world := s.world.note (.policy path bytes) }
  let builder ← addFound engine os deadline
    { root := if dir.isEmpty then ['.'] else dir, lines := [] } bytes
  .modify fun s => { s with scope.observations := observe path bytes s.scope.observations }
  if engine.ignoreBuild builder then pure builder else .fail .readFailed

/-- `BTreeMap::insert` of a directory's rules. -/
def Rules.insert (rules : Rules) (dir : Str) (compiled : Compiled) : Rules := fun d =>
  if d = dir then some compiled else rules d

/-- `Scope::enter` below its first check. -/
def enterDir (dir : Str) : Enter σ φ Unit := do
  let s ← .get
  -- absence records and compiled input are bounded across a traversal
  if s.scope.observations.length ≥ 4096 then .fail .entryLimit
  else
    let gitignore ← load engine os deadline dir GITIGNORE
    let ignore ← load engine os deadline dir IGNORE
    .modify fun s => { s with scope.rules := s.scope.rules.insert dir { gitignore, ignore } }

/-- `Scope::enter`. -/
def enter (dir : Str) : Enter σ φ Unit := do
  let s ← .get
  if s.scope.respectIgnore then enterDir engine os deadline dir else pure ()

/-- `Scope::verify`. -/
def verify : List (Str × Option Bytes) → Io σ φ Unit
  | [] => pure ()
  | (path, captured) :: rest => do
      let bytes ← policyBytes os deadline path
      if bytes = captured then verify rest else .fail .policyChanged

end Policies

/-! ## §5 — the snapshot hash. -/

/-- A `u64` in eight big-endian bytes. -/
def beBytes (n : Nat) : Bytes := (List.range 8).reverse.map fun i => UInt8.ofNat (n >>> (8 * i))

/-- Lower-case hexadecimal. -/
def hex (digest : Bytes) : Str :=
  digest.flatMap fun b => [Json.hexDigit (b.toNat / 16), Json.hexDigit (b.toNat % 16)]

/-- What `snapshot_hash` feeds the hash for one observation. -/
def snapshotEntry : Str × Option Bytes → Bytes
  | (path, none) => beBytes (utf8Len path) ++ Utf8.encode path ++ [0]
  | (path, some bytes) =>
      beBytes (utf8Len path) ++ Utf8.encode path ++ [1] ++ beBytes bytes.length ++ bytes

/-- `Scope::snapshot_hash`. -/
def snapshotHash (engine : Engine) (observations : List (Str × Option Bytes)) : Str :=
  hex (engine.sha256
    (Utf8.encode "jev-ignore-snapshot-v1".toList ++ [0] ++ observations.flatMap snapshotEntry))

/-! ## §6 — paths and the directories above them. -/

theorem length_parentOf {path : Str} (h : path ≠ []) : (parentOf path).length < path.length := by
  rw [parentOf, List.length_reverse, List.length_drop]
  have hpos := List.length_pos_iff.2 h
  have hle : (path.reverse.dropWhile (· ≠ '/')).length ≤ path.length := by
    calc (path.reverse.dropWhile (· ≠ '/')).length
        ≤ path.reverse.length := (List.dropWhile_sublist _).length_le
      _ = path.length := List.length_reverse
  omega

theorem upward_rounds : ∀ {n m : Nat} {dir : Str}, dir.length < n → dir.length < m →
    upward n dir = upward m dir
  | 0, _, _, hn, _ => absurd hn (Nat.not_lt_zero _)
  | _ + 1, 0, _, _, hm => absurd hm (Nat.not_lt_zero _)
  | n + 1, m + 1, dir, hn, hm => by
      rw [upward, upward]
      by_cases hempty : dir = []
      · rw [hempty]
        rfl
      · have hlt := length_parentOf hempty
        have hrounds : upward n (parentOf dir) = upward m (parentOf dir) :=
          upward_rounds (by omega) (by omega)
        rw [hrounds]

theorem above_nil : above [] = [[]] := rfl

theorem above_of_ne {dir : Str} (h : dir ≠ []) : above dir = dir :: containing dir := by
  have hlt := length_parentOf h
  have hrounds : upward dir.length (parentOf dir) = upward ((parentOf dir).length + 1) (parentOf dir) :=
    upward_rounds (by omega) (Nat.lt_succ_self _)
  rw [above, upward, if_neg (by simpa using h), containing, above, hrounds]

theorem mem_above_self (dir : Str) : dir ∈ above dir := by
  rw [above, upward]
  exact List.mem_cons_self

/-- Induction from a directory to the one it lies in. -/
theorem above_induction {P : Str → Prop} (root : P [])
    (step : ∀ d, d ≠ [] → P (parentOf d) → P d) (d : Str) : P d := by
  obtain ⟨n, hn⟩ : ∃ n, d.length < n := ⟨_, Nat.lt_succ_self _⟩
  induction n generalizing d with
  | zero => exact absurd hn (Nat.not_lt_zero _)
  | succ n ih =>
    by_cases hroot : d = []
    · rw [hroot]
      exact root
    · have hlt := length_parentOf hroot
      exact step d hroot (ih (parentOf d) (by omega))

theorem length_le_of_mem_above {a d : Str} (h : a ∈ above d) : a.length ≤ d.length := by
  induction d using above_induction with
  | root =>
    rw [above_nil] at h
    rw [List.mem_singleton.1 h]
  | step d hne ih =>
    rw [above_of_ne hne] at h
    rcases List.mem_cons.1 h with rfl | h
    · exact Nat.le_refl _
    · have hlt := length_parentOf hne
      have hle := ih h
      omega

theorem nil_mem_above (d : Str) : [] ∈ above d := by
  induction d using above_induction with
  | root => exact mem_above_self []
  | step d hne ih =>
    rw [above_of_ne hne]
    exact List.mem_cons_of_mem _ ih

theorem mem_above_trans {a b d : Str} (hab : a ∈ above b) (hbd : b ∈ above d) : a ∈ above d := by
  induction d using above_induction with
  | root =>
    rw [above_nil] at hbd
    rwa [List.mem_singleton.1 hbd] at hab
  | step d hne ih =>
    rw [above_of_ne hne] at hbd ⊢
    rcases List.mem_cons.1 hbd with rfl | hbd
    · rwa [above_of_ne hne] at hab
    · exact List.mem_cons_of_mem _ (ih hbd)

/-- Of two directories that a third lies in, one lies in the other. -/
theorem mem_above_or {a b d : Str} (ha : a ∈ above d) (hb : b ∈ above d) : a ∈ above b ∨ b ∈ above a := by
  induction d using above_induction with
  | root =>
    rw [above_nil] at ha hb
    rw [List.mem_singleton.1 ha]
    exact .inl (nil_mem_above b)
  | step d hne ih =>
    rw [above_of_ne hne] at ha hb
    rcases List.mem_cons.1 ha with rfl | ha
    · right
      rw [above_of_ne hne]
      exact hb
    · rcases List.mem_cons.1 hb with rfl | hb
      · left
        rw [above_of_ne hne]
        exact List.mem_cons_of_mem _ ha
      · exact ih ha hb

/-- A name lies directly in its directory. -/
theorem parentOf_child {dir name : Str} (h : '/' ∉ name) : parentOf (child dir name) = dir := by
  have hname : ∀ c ∈ name.reverse, decide (c ≠ '/') = true := fun c hc => by
    have hmem : c ∈ name := List.mem_reverse.1 hc
    exact decide_eq_true fun heq => h (heq ▸ hmem)
  unfold parentOf child
  split
  case isTrue hempty =>
    have hall : name.reverse.dropWhile (· ≠ '/') = [] := List.dropWhile_eq_nil_iff.2 hname
    rw [hall, List.isEmpty_iff.1 hempty]
    rfl
  case isFalse =>
    have hrev : (dir ++ '/' :: name).reverse = name.reverse ++ '/' :: dir.reverse := by simp
    rw [hrev, List.dropWhile_append_of_pos hname, List.dropWhile_cons_of_neg (by simp)]
    simp

theorem containing_child {dir name : Str} (h : '/' ∉ name) :
    containing (child dir name) = above dir := by
  rw [containing, parentOf_child h]

theorem child_injective {dir name name' : Str} (h : child dir name = child dir name') : name = name' := by
  unfold child at h
  split at h
  case isTrue => exact h
  case isFalse => exact (List.cons.inj (List.append_cancel_left h)).2

/-- A decoded name has no slash. -/
theorem slash_notMem_name {n : DirName} {name : Str} (h : Utf8.decode n.bytes = some name) :
    '/' ∉ name := fun hmem => by
  apply n.noSlash
  rw [Utf8.decode_eq_some.1 h, Utf8.encode]
  exact List.mem_flatMap.2 ⟨'/', hmem, by decide⟩

end JevGrep.Worker
