/-
# `JevGrep.Worker.Tree` — a file tree that stays as it is.

A `Node` is a tree of directories and files; `Static` says of a system that it shows such a tree: every
path of the tree opens, every handle keeps its node, its revision and its content, reads may come in
pieces of any size, and no call fails but the opening of a path that is not there. `Node.os` is the
plainest such system.

* §1 trees; §2 systems that show a tree; §3 the plainest one; §4 what the calls of the worker return.
-/
import JevGrep.Lib.Sha256
import JevGrep.Worker.Search

namespace JevGrep.Worker

open JevGrep.Lib
open Exec (bind_of_ok)

/-! ## §1 — trees. -/

/-- A static tree: files, directories, and what is neither. -/
inductive Node where
  | file (bytes : Bytes)
  | dir (entries : List (DirName × Node))
  | other

namespace Node

/-- The type `fstat` reports. -/
def fileType : Node → FileType
  | file _ => .regularFile
  | dir _ => .directory
  | other => .other

/-- The entry of a directory by name. -/
def child? (name : Str) : Node → Option Node
  | dir entries => (entries.find? fun e => e.1.bytes == Utf8.encode name).map (·.2)
  | _ => none

/-- The node behind some names. -/
def find : List Str → Node → Option Node
  | [], node => some node
  | name :: rest, node => (node.child? name).bind (find rest)

/-- The node at a path. -/
def lookup (tree : Node) (path : Str) : Option Node := tree.find (path.splitOn '/')

/-- Every directory has distinct names, and neither `.` nor `..` among its entries. -/
inductive Distinct : Node → Prop where
  | file (bytes : Bytes) : Distinct (file bytes)
  | other : Distinct other
  | dir (entries : List (DirName × Node)) (names : (entries.map (·.1.bytes)).Nodup)
      (dots : ∀ e ∈ entries, isDots e.1 = false) (below : ∀ e ∈ entries, Distinct e.2) :
      Distinct (dir entries)

/-- The tree has this node at this path; the root has the empty path. -/
def Holds (tree : Node) (path : Str) (node : Node) : Prop :=
  if path = [] then tree = node else tree.lookup path = some node

theorem find_append (node : Node) (a b : List Str) : node.find (a ++ b) = (node.find a).bind (find b) := by
  induction a generalizing node with
  | nil => rfl
  | cons name a ih =>
    show (node.child? name).bind (find (a ++ b)) = ((node.child? name).bind (find a)).bind (find b)
    cases node.child? name with
    | none => rfl
    | some n => exact ih n

theorem child?_of_mem {entries : List (DirName × Node)}
    (hnames : (entries.map (·.1.bytes)).Nodup) {n : DirName} {node : Node} {name : Str}
    (hname : Utf8.decode n.bytes = some name) (h : (n, node) ∈ entries) :
    (dir entries).child? name = some node := by
  have hbytes := Utf8.decode_eq_some.1 hname
  induction entries with
  | nil => cases h
  | cons e es ih =>
    rw [List.map_cons, List.nodup_cons] at hnames
    show ((e :: es).find? fun e => e.1.bytes == Utf8.encode name).map (·.2) = _
    by_cases he : e.1.bytes = Utf8.encode name
    · rw [List.find?_cons_of_pos (by simpa using he)]
      rcases List.mem_cons.1 h with rfl | hmem
      · rfl
      · -- a second entry of that name
        exact absurd (List.mem_map.2 ⟨(n, node), hmem, hbytes.trans he.symm⟩) hnames.1
    · rw [List.find?_cons_of_neg (by simpa using he)]
      rcases List.mem_cons.1 h with rfl | hmem
      · exact absurd hbytes he
      · exact ih hnames.2 hmem

theorem Holds.child {tree : Node} {dir : Str} {entries : List (DirName × Node)}
    (h : tree.Holds dir (.dir entries)) {name : Str} (hslash : '/' ∉ name) :
    tree.lookup (Worker.child dir name) = (Node.dir entries).child? name := by
  unfold Holds at h
  unfold lookup Worker.child
  by_cases hdir : dir = []
  · rw [if_pos hdir] at h
    rw [if_pos (by simpa using hdir), List.splitOn_eq_singleton hslash, h]
    show ((Node.dir entries).child? name).bind some = _
    exact Option.bind_fun_some _
  · rw [if_neg hdir] at h
    rw [if_neg (by simpa using hdir), List.splitOn_append_cons_self, find_append,
      List.splitOn_eq_singleton hslash]
    rw [show tree.find (dir.splitOn '/') = some (.dir entries) from h]
    show ((Node.dir entries).child? name).bind some = _
    exact Option.bind_fun_some _

/-- An entry of a directory stands at its path. -/
theorem Holds.entry {tree : Node} {dir : Str} {entries : List (DirName × Node)}
    (h : tree.Holds dir (.dir entries)) (hd : Distinct (.dir entries)) {n : DirName} {node : Node}
    {name : Str} (hname : Utf8.decode n.bytes = some name) (hmem : (n, node) ∈ entries) :
    tree.lookup (Worker.child dir name) = some node := by
  cases hd with
  | dir _ names dots below =>
    rw [h.child (slash_notMem_name hname)]
    exact child?_of_mem names hname hmem

end Node

/-! ## §2 — systems that show a tree. -/

/-- The stream yields these names in order, whatever happens between two items, with `.` and `..`
anywhere among them. -/
inductive Lists {σ : Type} : Stream σ → List DirName → Prop where
  | done : Lists .done []
  | dots (n : DirName) (rest : σ → Stream σ) (names : List DirName) (h : isDots n = true)
      (lists : ∀ s, Lists (rest s) names) : Lists (.name n rest) names
  | name (n : DirName) (rest : σ → Stream σ) (names : List DirName) (h : isDots n = false)
      (lists : ∀ s, Lists (rest s) names) : Lists (.name n rest) (n :: names)

/-- The system shows `tree` below `root`. -/
structure Static {σ φ : Type} (os : Os σ φ) (tree : Node) (root : φ) where
  /-- What a handle stands for. -/
  node : φ → Node
  stat : φ → Stat
  /-- What is still to be read through a handle. -/
  left : σ → φ → Bytes
  node_root : node root = tree
  stat_type : ∀ fd, (stat fd).fileType = (node fd).fileType
  stat_size : ∀ fd bytes, node fd = .file bytes → (stat fd).size = bytes.length
  openat2 : ∀ path s, match tree.lookup path with
    | some n => ∃ fd, (os.openat2 path s).1 = .ok fd ∧ node fd = n
    | none => (os.openat2 path s).1 = .error .noent
  reopen_file : ∀ fd s bytes, node fd = .file bytes → ∃ fd', (os.reopen fd false s).1 = some fd' ∧
    node fd' = .file bytes ∧ stat fd' = stat fd ∧ left (os.reopen fd false s).2 fd' = bytes
  reopen_dir : ∀ fd s entries, node fd = .dir entries → ∃ fd', (os.reopen fd true s).1 = some fd' ∧
    node fd' = .dir entries
  fstat : ∀ fd s, (os.fstat fd s).1 = some (stat fd)
  dir : ∀ fd s entries, node fd = .dir entries → (∀ e ∈ entries, isDots e.1 = false) →
    ∃ stream, (os.dir fd s).1 = some stream ∧ Lists stream (entries.map (·.1))
  read : ∀ fd wanted s, 0 < wanted → ∃ chunk, (os.read fd wanted s).1 = some chunk ∧
    chunk.length ≤ wanted ∧ chunk ++ left (os.read fd wanted s).2 fd = left s fd ∧
    (chunk = [] → left s fd = [])
  left_now : ∀ fd s, left (os.now s).2 fd = left s fd
  left_fstat : ∀ fd fd' s, left (os.fstat fd' s).2 fd = left s fd

/-! ## §3 — the plainest one. -/

namespace Stream

/-- A stream of names. -/
def ofNames {σ : Type} : List DirName → Stream σ
  | [] => .done
  | n :: names => .name n fun _ => ofNames names

theorem lists_ofNames {σ : Type} : ∀ {names : List DirName}, (∀ n ∈ names, isDots n = false) →
    Lists (ofNames names : Stream σ) names
  | [], _ => .done
  | n :: names, h => .name n _ names (h n List.mem_cons_self) fun _ =>
      lists_ofNames fun m hm => h m (List.mem_cons_of_mem n hm)

end Stream

namespace Node

/-- The bytes of a file. -/
def content : Node → Bytes
  | file bytes => bytes
  | _ => []

/-- What `fstat` says of a node. -/
def stat (node : Node) : Stat where
  fileType := node.fileType
  dev := 0
  ino := 0
  size := node.content.length
  mtime := 0
  mtimeNsec := 0
  ctime := 0
  ctimeNsec := 0

/-- The system whose handles are the nodes of `tree`. Its clock stands still; its state is how much of
the file opened last has been read. -/
def os (tree : Node) : Os Nat Node where
  now s := (0, s)
  openat2 path s :=
    (match tree.lookup path with
      | some node => .ok node
      | none => .error .noent, s)
  reopen node _ _ := (some node, 0)
  fstat node s := (some node.stat, s)
  read node wanted s := (some ((node.content.drop s).take wanted), s + wanted)
  dir node s :=
    match node with
    | dir entries => (some (Stream.ofNames (entries.map (·.1))), s)
    | _ => (none, s)

end Node

/-- A tree is shown by its own system. -/
def Node.static (tree : Node) : Static tree.os tree tree where
  node fd := fd
  stat fd := fd.stat
  left s fd := fd.content.drop s
  node_root := rfl
  stat_type _ := rfl
  stat_size fd bytes h := by subst h; rfl
  openat2 path s := by
    show match tree.lookup path with
      | some n => ∃ fd, (tree.os.openat2 path s).1 = .ok fd ∧ fd = n
      | none => (tree.os.openat2 path s).1 = .error .noent
    cases h : tree.lookup path with
    | none => simp [Node.os, h]
    | some n => exact ⟨n, by simp [Node.os, h], rfl⟩
  reopen_file fd s bytes h := ⟨fd, rfl, h, rfl, by subst h; rfl⟩
  reopen_dir fd s entries h := ⟨fd, rfl, h⟩
  fstat _ _ := rfl
  dir fd s entries h dots := by
    subst h
    refine ⟨_, rfl, Stream.lists_ofNames fun n hn => ?_⟩
    obtain ⟨e, he, rfl⟩ := List.mem_map.1 hn
    exact dots e he
  read fd wanted s hwanted := by
    refine ⟨_, rfl, List.length_take_le _ _, ?_, fun h => ?_⟩
    · show (fd.content.drop s).take wanted ++ fd.content.drop (s + wanted) = fd.content.drop s
      rw [← List.drop_drop, List.take_append_drop]
    · rcases List.take_eq_nil_iff.1 h with h | h
      · omega
      · exact h
  left_now _ _ := rfl
  left_fstat _ _ _ := rfl

/-- The occurrences of `needle`, `i` being the offset of the bytes left; the first `skip` of them belong
to the last occurrence. -/
def literalMatches (needle : Bytes) : Nat → Nat → Bytes → List (Nat × Nat)
  | _, _, [] => []
  | skip + 1, i, _ :: bytes => literalMatches needle skip (i + 1) bytes
  | 0, i, b :: bytes =>
      if needle.isPrefixOf (b :: bytes) then
        (i, i + needle.length) :: literalMatches needle (needle.length - 1) (i + 1) bytes
      else literalMatches needle 0 (i + 1) bytes

/-- Occurrences lie within the bytes that are searched. -/
theorem mem_literalMatches {needle : Bytes} : ∀ {bytes : Bytes} {skip i : Nat} {m : Nat × Nat},
    m ∈ literalMatches needle skip i bytes → m.1 ≤ m.2 ∧ m.2 ≤ i + bytes.length
  | [], skip, i, m, h => by
      cases skip <;> simp [literalMatches] at h
  | b :: bytes, skip + 1, i, m, h => by
      rw [literalMatches] at h
      obtain ⟨h₁, h₂⟩ := mem_literalMatches h
      rw [List.length_cons]
      omega
  | b :: bytes, 0, i, m, h => by
      have hnext : ∀ {skip : Nat}, m ∈ literalMatches needle skip (i + 1) bytes →
          m.1 ≤ m.2 ∧ m.2 ≤ i + (b :: bytes).length := fun {skip} hm => by
        obtain ⟨h₁, h₂⟩ := mem_literalMatches hm
        rw [List.length_cons]
        omega
      rw [literalMatches] at h
      split at h
      case isTrue hfound =>
        rcases List.mem_cons.1 h with rfl | h
        · have hle := (List.isPrefixOf_iff_prefix.1 hfound).length_le
          exact ⟨Nat.le_add_right _ _, Nat.add_le_add_left hle i⟩
        · exact hnext h
      case isFalse => exact hnext h

/-- Crates that know literal patterns, globs without wildcards and comments in ignore files. -/
def Engine.plain : Engine where
  matcher pattern kind _ :=
    match kind with
    | .literal => some (literalMatches (Utf8.encode pattern) 0 0)
    | .regex => none
  globBuild _ := true
  globSetBuild _ := true
  globMatch glob path := glob == path
  addLine _ _ := true
  ignoreBuild _ := true
  matched _ _ _ := .none
  sha256 := Sha256.digest
  elapsedMs _ := .nat 0

/-- A request for a literal in every file, ignore files respected. -/
def Request.literal (pattern : Str) : Request where
  v := 1
  id := ['1']
  pattern := pattern
  kind := .literal
  caseSensitive := true
  maxMatches := 10
  maxFileBytes := 100
  responseBytes := 4096
  deadlineMs := 1
  maxEntries := 10
  maxDepth := 2
  scope := { respectIgnore := true }

/-- A directory name from text without a slash. -/
def DirName.ofStr (name : Str) (h : 0x2f ∉ Utf8.encode name := by decide) : DirName :=
  ⟨Utf8.encode name, h⟩

theorem slash_not_mem_a : (0x2f : UInt8) ∉ Utf8.encode ['a'] := by decide

/-- The text of the sample file. -/
def oneFileText : Bytes := Utf8.encode "xa\n".toList

/-- A tree with one file. -/
def oneFile : Node := .dir [(.ofStr ['a'] slash_not_mem_a, .file oneFileText)]

/-- The job of a literal search for `a` in that tree. -/
def oneFileJob : Job Nat Node where
  engine := .plain
  os := oneFile.os
  root := oneFile
  request := .literal ['a']
  deadline := 1000000
  matcher := literalMatches (Utf8.encode ['a']) 0 0

/-- The state in which that search starts. -/
def oneFileStart : State Nat Node where
  world := ⟨0, []⟩
  scope := { groups := [], exclude := [], hidden := false, respectIgnore := true }
  result := Success.empty ['1']
  usedBytes := 2048

/-! ## §4 — what the calls of the worker return. -/

/-- What a capture with this limit returns of a node. -/
def Node.readable (limit : Nat) : Node → Option Bytes
  | .file bytes => if bytes.length ≤ limit ∧ isText bytes = true then some bytes else none
  | _ => none

namespace Static

variable {σ φ : Type} {os : Os σ φ} {tree : Node} {root : φ} (st : Static os tree root)
  {deadline : Nat} (htime : ∀ s, (os.now s).1 < deadline)

section Calls

include htime in
theorem expired_run (w : World σ φ) : ∃ w', expired os deadline w = (.ok (), w') ∧
    ∀ fd, st.left w'.os fd = st.left w.os fd := by
  have hnow : os.instant w = (.ok (os.now w.os).1, { w with os := (os.now w.os).2 }) := rfl
  refine ⟨{ w with os := (os.now w.os).2 }, ?_, fun fd => st.left_now fd w.os⟩
  rw [expired, bind_of_ok hnow, if_neg (by have := htime w.os; omega)]
  rfl

/-- A call that succeeds, checked on the spot. -/
theorem asked_run {α : Type} {f : σ → Option α × σ} {record : Option α → Event φ} {w : World σ φ} {a : α}
    (h : (f w.os).1 = some a) :
    (do orReadFailed (← Exec.call (Os.asked f record)) : Io σ φ α) w
      = (.ok a, { os := (f w.os).2, log := w.log ++ [record (some a)] }) := by
  have hcall : (Exec.call (Os.asked f record) : Io σ φ (Option α)) w
      = (.ok (some a), { os := (f w.os).2, log := w.log ++ [record (some a)] }) := by
    rw [← h]
    rfl
  rw [bind_of_ok hcall]
  rfl

theorem fstat_run (fd : φ) (w : World σ φ) : ∃ w', Worker.fstat os fd w = (.ok (st.stat fd), w') ∧
    ∀ fd', st.left w'.os fd' = st.left w.os fd' :=
  ⟨_, asked_run (st.fstat fd w.os), fun fd' => st.left_fstat fd' fd w.os⟩

theorem anchor_run {path : Str} {node : Node} (h : tree.lookup path = some node) (w : World σ φ) :
    ∃ fd w', anchor os path w = (.ok fd, w') ∧ st.node fd = node := by
  have ho := st.openat2 path w.os
  rw [h] at ho
  obtain ⟨fd, hfd, hnode⟩ := ho
  have hcall : os.doOpen path w = (.ok (.ok fd), (Os.asked (os.openat2 path) (.opened path) w).2) := by
    rw [← hfd]
    rfl
  refine ⟨fd, (Os.asked (os.openat2 path) (.opened path) w).2, ?_, hnode⟩
  rw [anchor, bind_of_ok hcall]
  rfl

/-- A read takes a piece of what is left, and takes nothing only at the end. -/
theorem readChunk_run {fd : φ} {wanted : Nat} (h : 0 < wanted) (w : World σ φ) :
    ∃ chunk w', readChunk os fd wanted w = (.ok chunk, w') ∧
      chunk ++ st.left w'.os fd = st.left w.os fd ∧ (chunk = [] → st.left w.os fd = []) := by
  obtain ⟨chunk, hchunk, hlen, hleft, hend⟩ := st.read fd wanted w.os h
  refine ⟨chunk, ⟨(os.read fd wanted w.os).2, w.log ++ [.read fd wanted (some chunk)]⟩, ?_, hleft,
    hend⟩
  have htaken : (os.read fd wanted w.os).1.map (·.take wanted) = some chunk := by
    rw [hchunk, Option.map_some, List.take_of_length_le hlen]
  exact asked_run (f := fun s => ((os.read fd wanted s).1.map (·.take wanted),
    (os.read fd wanted s).2)) htaken

include htime in
/-- The read loop returns what is left of the file, in pieces of whatever size. -/
theorem readAll_run {fd : φ} {limit : Nat} : ∀ {rounds : Nat} {bytes : Bytes} (w : World σ φ),
    (bytes ++ st.left w.os fd).length ≤ limit → limit + 1 ≤ rounds + bytes.length →
      ∃ w', readAll os deadline fd limit rounds bytes w = (.ok (bytes ++ st.left w.os fd), w')
  | 0, bytes, w, hle, hrounds => by
      rw [List.length_append] at hle
      omega
  | rounds + 1, bytes, w, hle, hrounds => by
      rw [List.length_append] at hle
      obtain ⟨w₁, h₁, hleft₁⟩ := st.expired_run htime w
      have hwanted : 0 < min CHUNK (limit + 1 - bytes.length) := by
        have : 0 < CHUNK := by decide
        omega
      obtain ⟨chunk, w₂, h₂, hleft₂, hend⟩ := st.readChunk_run hwanted w₁
      rw [hleft₁] at hleft₂ hend
      rw [readAll, bind_of_ok h₁, bind_of_ok h₂]
      by_cases hempty : chunk = []
      · rw [if_pos (by simpa using hempty)]
        exact ⟨w₂, by rw [hend hempty, List.append_nil]; rfl⟩
      · rw [if_neg (by simpa using hempty)]
        have hpos := List.length_pos_iff.2 hempty
        have hlens := congrArg List.length hleft₂
        rw [List.length_append] at hlens
        rw [if_neg (by rw [List.length_append]; omega)]
        have hfits : ((bytes ++ chunk) ++ st.left w₂.os fd).length ≤ limit := by
          simp only [List.length_append]
          omega
        have hmore : limit + 1 ≤ rounds + (bytes ++ chunk).length := by
          rw [List.length_append]
          omega
        obtain ⟨w', h'⟩ := readAll_run w₂ hfits hmore
        refine ⟨w', h'.trans ?_⟩
        rw [List.append_assoc, hleft₂]

theorem sameRevision_self (a : Stat) : sameRevision a a = true := by simp [sameRevision]

include htime in
theorem captureFrom_run {fd : φ} {limit : Nat} {bytes : Bytes} (hnode : st.node fd = .file bytes)
    (hlen : bytes.length ≤ limit) (w : World σ φ) :
    ∃ w', captureFrom os deadline fd limit (st.stat fd) w
      = (.ok (if isText bytes then some bytes else none), w') := by
  obtain ⟨w₁, h₁, -⟩ := st.expired_run htime w
  obtain ⟨fd', hfd', hnode', hstat', hleft'⟩ := st.reopen_file fd w₁.os bytes hnode
  have h₂ : reopen os fd false w₁ = (.ok fd', _) := asked_run hfd'
  obtain ⟨w₃, h₃, hleft₃⟩ := st.fstat_run fd'
    ⟨(os.reopen fd false w₁.os).2, w₁.log ++ [.reopened fd false (some fd')]⟩
  have hall : st.left w₃.os fd' = bytes := by rw [hleft₃, hleft']
  obtain ⟨w₄, h₄⟩ : ∃ w₄, readAll os deadline fd' limit (limit + 1) [] w₃
      = (.ok ([] ++ st.left w₃.os fd'), w₄) :=
    st.readAll_run htime w₃ (by rw [List.nil_append, hall]; exact hlen) (Nat.le_refl _)
  rw [List.nil_append, hall] at h₄
  obtain ⟨w₅, h₅, -⟩ := st.fstat_run fd' w₄
  have htype : (st.stat fd).fileType = .regularFile := by rw [st.stat_type, hnode]; rfl
  refine ⟨w₅, ?_⟩
  rw [captureFrom, bind_of_ok h₁, bind_of_ok h₂, bind_of_ok h₃, hstat',
    if_neg (by simp [htype, sameRevision_self]), bind_of_ok h₄, bind_of_ok h₅, hstat',
    if_neg (by simp [sameRevision_self])]
  rfl

include htime in
/-- A capture returns the text of a file that is not too large, and nothing of any other node. -/
theorem capture_run (fd : φ) (limit : Nat) (w : World σ φ) :
    ∃ w', capture os deadline fd limit w = (.ok ((st.node fd).readable limit), w') := by
  suffices h : ∃ w', inspect os deadline fd limit w = (.ok ((st.node fd).readable limit), w') by
    obtain ⟨w', h⟩ := h
    exact ⟨w'.note (.captured fd (.ok ((st.node fd).readable limit))), by rw [capture, recorded, h]⟩
  obtain ⟨w₁, h₁, -⟩ := st.expired_run htime w
  obtain ⟨w₂, h₂, -⟩ := st.fstat_run fd w₁
  rw [inspect, bind_of_ok h₁, bind_of_ok h₂]
  have htype := st.stat_type fd
  cases hnode : st.node fd with
  | file bytes =>
    have hsize := st.stat_size fd bytes hnode
    rw [hnode] at htype
    by_cases hlen : bytes.length ≤ limit
    · rw [if_neg (by simp [unreadable, htype, Node.fileType, hsize, hlen])]
      obtain ⟨w', h⟩ := st.captureFrom_run htime hnode hlen w₂
      refine ⟨w', h.trans ?_⟩
      simp [Node.readable, hlen]
    · rw [if_pos (by simp [unreadable, hsize]; omega)]
      exact ⟨w₂, by simp [Node.readable, hlen]⟩
  | dir entries =>
    rw [hnode] at htype
    exact ⟨w₂, by rw [if_pos (by simp [unreadable, htype, Node.fileType])]; rfl⟩
  | other =>
    rw [hnode] at htype
    exact ⟨w₂, by rw [if_pos (by simp [unreadable, htype, Node.fileType])]; rfl⟩

include htime in
theorem captureTwice_run {job : Job σ φ} (hos : job.os = os) (hdeadline : job.deadline = deadline)
    (fd : φ) (path : Str) (w : World σ φ) : ∃ w', captureTwice job fd path w
      = (.ok ((st.node fd).readable job.request.maxFileBytes), w') := by
  subst hos hdeadline
  obtain ⟨w', h⟩ := st.capture_run htime fd job.request.maxFileBytes w
  have hattempt : (.attempt (capture job.os job.deadline fd job.request.maxFileBytes) :
      Io σ φ (Except Code (Option Bytes))) w
        = (.ok (.ok ((st.node fd).readable job.request.maxFileBytes)), w') := by
    rw [Exec.attempt_run, h]
  exact ⟨w', by rw [captureTwice, bind_of_ok hattempt]; rfl⟩

theorem openDir_run {job : Job σ φ} (hos : job.os = os) {fd : φ} {entries : List (DirName × Node)}
    (hnode : st.node fd = .dir entries) (dots : ∀ e ∈ entries, isDots e.1 = false) (w : World σ φ) :
    ∃ stream w', openDir job fd w = (.ok stream, w') ∧ Lists stream (entries.map (·.1)) := by
  subst hos
  obtain ⟨fd', hfd', hnode'⟩ := st.reopen_dir fd w.os entries hnode
  have h₁ : reopen job.os fd true w = (.ok fd', _) := asked_run hfd'
  obtain ⟨stream, hstream, hlists⟩ := st.dir fd' (job.os.reopen fd true w.os).2 entries hnode' dots
  exact ⟨stream, _, (bind_of_ok h₁).trans (asked_run hstream), hlists⟩

end Calls

end Static

/-! ## §5 — the ignore files of a tree. -/

/-- The ignore file at a path, as a capture returns it. -/
def Node.policy (tree : Node) (path : Str) : Option Bytes := (tree.lookup path).bind (readable 65536)

/-- The compiled rules of a directory of the tree. -/
def Node.compiled (tree : Node) (dir : Str) : Compiled where
  gitignore := gitignoreOf dir (tree.policy (child dir GITIGNORE))
  ignore := gitignoreOf dir (tree.policy (child dir IGNORE))

namespace Static

variable {σ φ : Type} {os : Os σ φ} {tree : Node} {root : φ} (st : Static os tree root)
  {deadline : Nat} (htime : ∀ s, (os.now s).1 < deadline)

include st htime

theorem policyBytes_run {path : Str}
    (h : tree.lookup path = none ∨ (tree.policy path).isSome = true) (w : World σ φ) :
    ∃ w', policyBytes os deadline path w = (.ok (tree.policy path), w') := by
  obtain ⟨w₁, h₁, -⟩ := st.expired_run htime w
  have ho := st.openat2 path w₁.os
  rw [policyBytes, bind_of_ok h₁]
  cases hnode : tree.lookup path with
  | none =>
    rw [hnode] at ho
    have hcall : os.doOpenPolicy path w₁
        = (.ok (.error .noent), (Os.asked (os.openat2 path) (.policyOpened path) w₁).2) := by
      rw [← ho]
      rfl
    rw [bind_of_ok hcall, Node.policy, hnode]
    exact ⟨_, rfl⟩
  | some node =>
    rw [hnode] at ho
    obtain ⟨fd, hfd, hfdnode⟩ := ho
    have hcall : os.doOpenPolicy path w₁
        = (.ok (.ok fd), (Os.asked (os.openat2 path) (.policyOpened path) w₁).2) := by
      rw [← hfd]
      rfl
    obtain ⟨w₃, h₃⟩ := st.capture_run htime fd 65536
      (Os.asked (os.openat2 path) (.policyOpened path) w₁).2
    have hpolicy : tree.policy path = node.readable 65536 := by rw [Node.policy, hnode]; rfl
    rw [hfdnode, ← hpolicy] at h₃
    obtain ⟨bytes, hbytes⟩ := Option.isSome_iff_exists.1 (h.resolve_left (by simp [hnode]))
    rw [hbytes] at h₃ ⊢
    have hattempt : (.attempt (capture os deadline fd 65536) : Io σ φ (Except Code (Option Bytes)))
        (Os.asked (os.openat2 path) (.policyOpened path) w₁).2 = (.ok (.ok (some bytes)), w₃) := by
      rw [Exec.attempt_run, h₃]
    have hcontent : policyContent os deadline fd
        (Os.asked (os.openat2 path) (.policyOpened path) w₁).2 = (.ok bytes, w₃) := by
      rw [policyContent, bind_of_ok hattempt]
      rfl
    refine ⟨w₃, ?_⟩
    rw [bind_of_ok hcall]
    exact bind_of_ok hcontent

/-- Ignore files that stay as they are are found again. -/
theorem verify_run : ∀ (observations : List (Str × Option Bytes)) (w : World σ φ),
    (∀ o ∈ observations, o.2 = tree.policy o.1 ∧
      (tree.lookup o.1 = none ∨ (tree.policy o.1).isSome = true)) →
    ∃ w', verify os deadline observations w = (.ok (), w')
  | [], w, _ => ⟨w, rfl⟩
  | (path, bytes) :: rest, w, h => by
      obtain ⟨hsame, hvalid⟩ := h (path, bytes) List.mem_cons_self
      obtain ⟨w₁, h₁⟩ := st.policyBytes_run htime hvalid w
      obtain ⟨w', h'⟩ := verify_run rest w₁ fun o ho => h o (List.mem_cons_of_mem _ ho)
      refine ⟨w', ?_⟩
      rw [verify, bind_of_ok h₁, if_pos hsame.symm]
      exact h'

end Static

end JevGrep.Worker
