/-
# `JevGrep.Worker.Os` — the operating system the worker runs on.

Every call of `native/worker` that leaves the process is a field of `Os`: what it returns and what
state it leaves is the system's choice, so that files may change in any way between two calls. The
`World` adds a log that records each call with its outcome; no definition of the worker reads it.

* §1 what the calls return; §2 the calls; §3 `expired`, `anchor` and `capture`.
-/
import JevGrep.Lib.Exec
import JevGrep.Lib.Utf8
import JevGrep.Worker.Types

namespace JevGrep.Worker

open JevGrep.Lib

/-! ## §1 — what the calls return. -/

/-- `ENOENT` is the one error the worker tells from the others. -/
inductive Errno where
  | noent | other
  deriving DecidableEq, Repr

/-- `FileType::from_raw_mode`. -/
inductive FileType where
  | directory | regularFile | other
  deriving DecidableEq, Repr

/-- The fields of `Stat` that the worker reads. -/
structure Stat where
  fileType : FileType
  dev : Nat
  ino : Nat
  size : Int
  mtime : Int
  mtimeNsec : Int
  ctime : Int
  ctimeNsec : Int
  deriving DecidableEq, Repr

/-- `same_revision`. -/
def sameRevision (a b : Stat) : Bool :=
  a.dev == b.dev && a.ino == b.ino && a.size == b.size && a.mtime == b.mtime
    && a.mtimeNsec == b.mtimeNsec && a.ctime == b.ctime && a.ctimeNsec == b.ctimeNsec

/-- A name as a directory stores it: bytes, none of them a slash. -/
structure DirName where
  bytes : Bytes
  noSlash : 0x2f ∉ bytes
  deriving DecidableEq

/-- What is left of an open directory stream. The next item may depend on everything that happened
since the last one; every stream comes to an end. -/
inductive Stream (σ : Type) where
  | done
  | failed
  | name (n : DirName) (rest : σ → Stream σ)

/-- One item of a directory stream. -/
inductive Item where
  | done
  | failed
  | name (n : DirName)
  deriving DecidableEq

/-- What a stream yields next. -/
def Stream.item {σ : Type} : Stream σ → Item
  | .done => .done
  | .failed => .failed
  | .name n _ => .name n

/-! ## §2 — the calls. -/

/-- `σ` is the system's state, `φ` its file handles. -/
structure Os (σ φ : Type) where
  /-- `Instant::now()`, in nanoseconds. -/
  now : σ → Nat × σ
  /-- `openat2` beneath the root with `O_PATH`, no symbolic link and no mount point followed. -/
  openat2 : Str → σ → Except Errno φ × σ
  /-- `open` of `/proc/self/fd/N`, with `O_DIRECTORY` or without. -/
  reopen : φ → Bool → σ → Option φ × σ
  fstat : φ → σ → Option Stat × σ
  /-- `read` into a buffer of the given length. -/
  read : φ → Nat → σ → Option Bytes × σ
  /-- `Dir::new`. -/
  dir : φ → σ → Option (Stream σ) × σ

/-- A compiled ignore file: the directory it is rooted at and its lines. -/
structure Gitignore where
  root : Str
  lines : List Str
  deriving DecidableEq, Repr

/-- The compiled rules of a directory, in the order of the source's `compiled`. -/
structure Compiled where
  gitignore : Gitignore
  ignore : Gitignore
  deriving DecidableEq, Repr

/-- `BTreeMap<String, Vec<Gitignore>>`. -/
abbrev Rules := Str → Option Compiled

/-- What the log records. -/
inductive Event (φ : Type) where
  /-- `openat2` of an entry. -/
  | opened (path : Str) (outcome : Except Errno φ)
  /-- `openat2` of an ignore file. -/
  | policyOpened (path : Str) (outcome : Except Errno φ)
  | reopened (fd : φ) (directory : Bool) (outcome : Option φ)
  | stat (fd : φ) (outcome : Option Stat)
  | read (fd : φ) (wanted : Nat) (outcome : Option Bytes)
  | listed (fd : φ) (succeeded : Bool)
  | entry (dir : Str) (item : Item)
  /-- A `capture` came to its end. -/
  | captured (fd : φ) (outcome : Except Code (Option Bytes))
  /-- An ignore file was captured, or found absent. -/
  | policy (path : Str) (bytes : Option Bytes)
  /-- `Scope::allows` was asked, with these rules loaded. -/
  | checked (path : Str) (directory : Bool) (rules : Rules)
  | searched (path : Str)

/-- The system and the log. -/
structure World (σ φ : Type) where
  os : σ
  log : List (Event φ)

namespace World

variable {σ φ : Type}

/-- An event for the log. -/
def note (e : Event φ) (w : World σ φ) : World σ φ := { w with log := w.log ++ [e] }

@[simp] theorem note_os (e : Event φ) (w : World σ φ) : (w.note e).os = w.os := rfl
@[simp] theorem note_log (e : Event φ) (w : World σ φ) : (w.note e).log = w.log ++ [e] := rfl

end World

/-- A part of the worker that only talks to the system. -/
abbrev Io (σ φ α : Type) : Type := Exec (World σ φ) Code α

namespace Os

variable {σ φ α : Type} (os : Os σ φ)

/-- A call of the system with its record. -/
def asked (f : σ → α × σ) (record : α → Event φ) (w : World σ φ) : α × World σ φ :=
  ((f w.os).1, { os := (f w.os).2, log := w.log ++ [record (f w.os).1] })

/-- The calls, each with its record in the log. -/
def instant : Io σ φ Nat := .call fun w => ((os.now w.os).1, { w with os := (os.now w.os).2 })

def doOpen (path : Str) : Io σ φ (Except Errno φ) := .call (asked (os.openat2 path) (.opened path))

/-- The `openat2` of an ignore file. -/
def doOpenPolicy (path : Str) : Io σ φ (Except Errno φ) :=
  .call (asked (os.openat2 path) (.policyOpened path))

/-- `reopen` through `/proc/self/fd`. -/
def doReopen (fd : φ) (directory : Bool) : Io σ φ (Option φ) :=
  .call (asked (os.reopen fd directory) (.reopened fd directory))

def doStat (fd : φ) : Io σ φ (Option Stat) := .call (asked (os.fstat fd) (.stat fd))

/-- A read never returns more than the buffer holds. -/
def doRead (fd : φ) (wanted : Nat) : Io σ φ (Option Bytes) :=
  .call (asked (fun s => ((os.read fd wanted s).1.map (·.take wanted), (os.read fd wanted s).2))
    (.read fd wanted))

/-- `Dir::read_from`. -/
def doDir (fd : φ) : Io σ φ (Option (Stream σ)) :=
  .call (asked (os.dir fd) fun stream => .listed fd stream.isSome)

end Os

/-- `.map_err(|_| Code::ReadFailed)?`. -/
def orReadFailed {σ φ α : Type} : Option α → Io σ φ α
  | some a => pure a
  | none => .fail .readFailed

/-! ## §3 — `expired`, `anchor` and `capture`. -/

section Calls

variable {σ φ : Type} (os : Os σ φ) (deadline : Nat)

/-- `expired`. -/
def expired : Io σ φ Unit := do
  let now ← os.instant
  if now ≥ deadline then .fail .deadline else pure ()

/-- `anchor`. -/
def anchor (path : Str) : Io σ φ φ := do
  match ← os.doOpen path with
  | .ok fd => pure fd
  | .error _ => .fail .readFailed

/-- `reopen`. -/
def reopen (fd : φ) (directory : Bool) : Io σ φ φ := do
  orReadFailed (← os.doReopen fd directory)

/-- `fs::fstat(fd).map_err(|_| Code::ReadFailed)?`. -/
def fstat (fd : φ) : Io σ φ Stat := do
  orReadFailed (← os.doStat fd)

/-- The buffer of `capture`. -/
def CHUNK : Nat := 65536

/-- `file.read(…).map_err(|_| Code::ReadFailed)?`. -/
def readChunk (fd : φ) (wanted : Nat) : Io σ φ Bytes := do
  orReadFailed (← os.doRead fd wanted)

/-- The read loop of `capture`. Every round that does not end it adds at least one byte, so a round
for each byte of `limit` and one more are enough. -/
def readAll (fd : φ) (limit : Nat) : Nat → Bytes → Io σ φ Bytes
  | 0, _ => .fail .sourceMutated
  | rounds + 1, bytes => do
      expired os deadline
      let chunk ← readChunk os fd (min CHUNK (limit + 1 - bytes.length))
      if chunk.isEmpty then pure bytes
      else if (bytes ++ chunk).length > limit then .fail .sourceMutated
      else readAll fd limit rounds (bytes ++ chunk)

/-- What `capture` refuses before it opens the file for reading. -/
def unreadable (before : Stat) (limit : Nat) : Bool :=
  before.fileType != .regularFile || before.size < 0 || before.size > limit

/-- `bytes.contains(&0) || from_utf8(&bytes).is_err()`. -/
def isText (bytes : Bytes) : Bool := !bytes.contains 0 && (Utf8.decode bytes).isSome

/-- `capture` from the second deadline check on. -/
def captureFrom (fd : φ) (limit : Nat) (before : Stat) : Io σ φ (Option Bytes) := do
  expired os deadline
  let readable ← reopen os fd false
  let opened ← fstat os readable
  if opened.fileType ≠ .regularFile ∨ sameRevision before opened = false then
    .fail .sourceMutated
  else
    let bytes ← readAll os deadline readable limit (limit + 1) []
    let after ← fstat os readable
    if sameRevision before after = false then .fail .sourceMutated
    else pure (if isText bytes then some bytes else none)

/-- The body of `capture`. -/
def inspect (fd : φ) (limit : Nat) : Io σ φ (Option Bytes) := do
  expired os deadline
  let before ← fstat os fd
  if unreadable before limit then pure none else captureFrom os deadline fd limit before

/-- `m`, with its outcome in the log. -/
def recorded {α : Type} (record : Except Code α → Event φ) (m : Io σ φ α) : Io σ φ α := fun w =>
  ((m w).1, (m w).2.note (record (m w).1))

/-- `capture`. -/
def capture (fd : φ) (limit : Nat) : Io σ φ (Option Bytes) :=
  recorded (.captured fd) (inspect os deadline fd limit)

end Calls

end JevGrep.Worker
