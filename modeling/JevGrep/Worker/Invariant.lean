/-
# `JevGrep.Worker.Invariant` — invariants of the walk.

A property of the state that each single change of the worker keeps, the walk keeps, however deep it
goes and whatever the system answers. The property may depend on the directories that are entered and
not left, and on the number of entries taken up that no counter has yet. §1 what an invariant has to
keep; §2 the search of a file; §3 the entries of a directory and the walk; §4 the two parts of
`search` behind the walk.
-/
import JevGrep.Worker.Calls

namespace JevGrep.Worker

open JevGrep.Lib
open Exec (Triple Keeps bind_ok)

variable {σ φ : Type}

/-! ## §1 — what an invariant has to keep. -/

/-- The codes a walk ends in. -/
def walkCodes (r : Request) : List Code :=
  [.deadline, .readFailed, .policyChanged, .entryLimit, .byteLimit]
    ++ if r.read.isSome then [.revisionMismatch, .invalidRequest] else [.matchEncoding, .limitReached]

/-- The content of a file, as a capture returned it. -/
structure Content (limit : Nat) (bytes : Bytes) (s : State σ φ) : Prop where
  captured : ∃ fd, Event.captured fd (.ok (some bytes)) ∈ s.world.log
  length : bytes.length ≤ limit
  text : isText bytes = true

/-- An entry that the walk looks into: its path is valid, not hidden, and on the way of a read. -/
structure Candidate (job : Job σ φ) (filter : Filter) (path : Str) : Prop where
  valid : validPath path = true
  shown : filter.excludedPath path = false
  ahead : aside job.request path = false

/-- A property that every change keeps. `Inv ds k` holds with `ds` entered, the innermost first, and
`k` entries in no counter; `Named` and `Clear` hold of the entry at hand, `Named` from its name on and
`Clear` once it is in scope, as a directory or not. -/
structure Invariant (job : Job σ φ) where
  Inv : List Str → Nat → State σ φ → Prop
  Named : Str → Str → State σ φ → Prop := fun _ _ _ => True
  Clear : Bool → Str → State σ φ → Prop := fun _ _ _ => True
  spare : ∀ {ds k s}, Inv ds (k + 1) s → Inv ds k s
  leave : ∀ {d ds k s}, Inv (d :: ds) k s → Inv ds k s
  called : ∀ {ds k s w}, Inv ds k s → Grown s.world.log w → Inv ds k { s with world := w }
  named_called : ∀ {dir name s w}, Named dir name s → Grown s.world.log w →
    Named dir name { s with world := w } := by intros; trivial
  clear_called : ∀ {directory path s w}, Clear directory path s → Grown s.world.log w →
    Clear directory path { s with world := w } := by intros; trivial
  entered : ∀ {ds k} (dir : Str), Triple (fun s => Inv ds k s ∧ Clear true dir s)
    (Work.entering (enter job.engine job.os job.deadline dir)) (fun _ => Inv (dir :: ds) k)
    fun _ => Inv ds k
  /-- The end of a directory, or an error of its stream. -/
  ended : ∀ {ds k s} (dir : Str) (item : Item), (∀ n, item ≠ .name n) → Inv (dir :: ds) k s →
    Inv (dir :: ds) k (s.note (.entry dir item))
  named : ∀ {ds k s dir} (n : DirName), Inv (dir :: ds) k s →
    Inv (dir :: ds) k (s.note (.entry dir (.name n)))
  named_name : ∀ {ds k s dir n name}, Inv (dir :: ds) k s → isDots n = false →
    Utf8.decode n.bytes = some name → Named dir name (s.note (.entry dir (.name n))) := by
      intros; trivial
  visited : ∀ {ds k s}, Inv ds k s → s.result.counts.visited ≠ job.request.maxEntries →
    Inv ds (k + 1) s.visited
  named_visited : ∀ {dir name s}, Named dir name s → Named dir name s.visited := by intros; trivial
  excluded : ∀ {ds k s}, Inv ds (k + 1) s → Inv ds k s.excluded
  failed : ∀ {ds k s code}, Inv ds (k + 1) s → code = .readFailed ∨ code = .sourceMutated →
    Inv ds k (s.failed.issue code)
  tooDeep : ∀ {ds k s}, Inv ds k s → Inv ds k (s.issue .depthLimit)
  checked : ∀ {ds k s dir name} (directory : Bool), Inv (dir :: ds) k s → Named dir name s →
    Candidate job s.scope.toFilter (child dir name) →
    Inv (dir :: ds) k (s.note (.checked (child dir name) directory s.scope.rules))
  clear_checked : ∀ {ds k s dir name} {directory : Bool}, Inv (dir :: ds) k s → Named dir name s →
    Candidate job s.scope.toFilter (child dir name) →
    s.scope.allows job.engine (child dir name) directory = true →
    Clear directory (child dir name)
      (s.note (.checked (child dir name) directory s.scope.rules)) := by intros; trivial
  searched : ∀ {ds k s path bytes}, Inv ds (k + 1) s → Clear false path s → validPath path = true →
    Content job.request.maxFileBytes bytes s → Inv ds k (s.searched path bytes)
  clear_searched : ∀ {path bytes s}, Clear false path s → Clear false path (s.searched path bytes) := by
    intros; trivial
  found : ∀ {ds k s path bytes start stop}, Inv ds k s → Clear false path s → validPath path = true →
    Content job.request.maxFileBytes bytes s → job.request.read = none →
    (start, stop) ∈ job.matcher bytes → phantom bytes start = false →
    isCharBoundary bytes start = true → isCharBoundary bytes stop = true →
    s.result.hits.length ≠ job.request.maxMatches →
    s.usedBytes + (matchHit path (hex (job.engine.sha256 bytes)) bytes start stop).size
      ≤ job.request.responseBytes →
    Inv ds k ((s.charge (matchHit path (hex (job.engine.sha256 bytes)) bytes start stop).size).push
      (matchHit path (hex (job.engine.sha256 bytes)) bytes start stop))
  clear_found : ∀ {path s size hit}, job.request.read = none → Clear false path s →
    Clear false path ((s.charge size).push hit) := by intros; trivial
  read : ∀ {ds k s bytes read}, Inv ds k s → Clear false read.path s → validPath read.path = true →
    Content job.request.maxFileBytes bytes s → job.request.read = some read →
    (∀ digest, read.expectedFileSha256 = some digest → digest = hex (job.engine.sha256 bytes)) →
    read.range.stop ≤ bytes.length → isCharBoundary bytes read.range.start = true →
    isCharBoundary bytes read.range.stop = true →
    s.usedBytes + (readHit read.path (hex (job.engine.sha256 bytes)) bytes read.range).size
      ≤ job.request.responseBytes →
    Inv ds k (s.push (readHit read.path (hex (job.engine.sha256 bytes)) bytes read.range))

/-- What does not read the rules, `enter` keeps if a longer log does. -/
theorem entered_of {job : Job σ φ} {P Q : State σ φ → Prop} (dir : Str)
    (h : ∀ s w scope, P s → s.world.log <+: w.log → scope.toFilter = s.scope.toFilter →
      Q { s with world := w, scope := scope }) :
    Triple P (Work.entering (enter job.engine job.os job.deadline dir)) (fun _ => Q)
      fun _ => Q := by
  intro s hs
  have henter : EnterSafe (enter job.engine job.os job.deadline dir : Enter σ φ Unit) := safe_enter dir
  have hsafe := henter s.world.log s.scope.toFilter
  refine Triple.onPart hsafe (P := (· = s)) ?_ ?_ ?_ s rfl
  · rintro _ rfl
    exact ⟨Extended.refl _, rfl⟩
  · rintro _ _ e rfl he
    exact h _ _ _ hs he.1.le he.2
  · rintro _ code e rfl he
    exact h _ _ _ hs he.1.1.le he.1.2

namespace Invariant

variable {job : Job σ φ} (inv : Invariant job) {ds : List Str} {k : Nat}

/-- From `P`, `m` ends with the invariant, and with a code of the walk where it fails. -/
def Leads (P : State σ φ → Prop) (ds : List Str) (k : Nat) (m : Work σ φ Unit) : Prop :=
  Triple P m (fun _ => inv.Inv ds k) fun code s => inv.Inv ds k s ∧ code ∈ walkCodes job.request

theorem mem_walkCodes {r : Request} {code : Code}
    (h : code ∈ [Code.deadline, .readFailed, .policyChanged, .entryLimit, .byteLimit]) :
    code ∈ walkCodes r := List.mem_append_left _ h

/-- A call, between two parts of the walk. -/
theorem io {α : Type} {codes : List Code} {Q : α → Prop} {m : Io σ φ α} (h : Safe codes Q m)
    (hcodes : ∀ code ∈ codes, code ∈ walkCodes job.request) {P : State σ φ → Prop}
    (hP : ∀ s w, P s → Grown s.world.log w → P { s with world := w })
    (hinv : ∀ s, P s → inv.Inv ds k s) :
    Triple P (Work.io m) (fun a s => P s ∧ Q a)
      fun code s => inv.Inv ds k s ∧ code ∈ walkCodes job.request := by
  intro s hs
  refine Triple.onPart (h s.world.log) (P := (· = s)) ?_ ?_ ?_ s rfl
  · rintro _ rfl
    exact Grown.refl _
  · rintro _ a w rfl hw
    exact ⟨hP _ _ hs hw.1, hw.2⟩
  · rintro _ code w rfl hw
    exact ⟨inv.called (hinv _ hs) hw.1, hcodes _ hw.2⟩

theorem inTime {P : State σ φ → Prop}
    (hP : ∀ s w, P s → Grown s.world.log w → P { s with world := w })
    (hinv : ∀ s, P s → inv.Inv ds k s) :
    Triple P (inTime job) (fun _ => P)
      fun code s => inv.Inv ds k s ∧ code ∈ walkCodes job.request := by
  have hsafe : Safe [Code.deadline] (fun _ => True) (expired job.os job.deadline) :=
    safe_expired (by decide)
  have h := inv.io hsafe (fun code hc => by
      rw [List.mem_singleton.1 hc]
      exact mem_walkCodes (by decide)) hP hinv
  exact Triple.con (fun _ hs => hs) h (fun _ _ hs => hs.1) fun _ _ hs => hs

/-! ## §2 — the search of a file. -/

/-- What holds while a file is searched. -/
structure Reading (ds : List Str) (k : Nat) (path : Str) (bytes : Bytes) (s : State σ φ) : Prop where
  holds : inv.Inv ds k s
  clear : inv.Clear false path s
  content : Content job.request.maxFileBytes bytes s

theorem content_called {limit : Nat} {bytes : Bytes} {s : State σ φ} {w : World σ φ}
    (h : Content limit bytes s) (hw : Grown s.world.log w) :
    Content limit bytes { s with world := w } := by
  obtain ⟨fd, hfd⟩ := h.captured
  exact ⟨⟨fd, hw.le.subset hfd⟩, h.length, h.text⟩

variable {inv}

theorem Reading.called {path : Str} {bytes : Bytes} {s : State σ φ} {w : World σ φ}
    (h : Reading inv ds k path bytes s) (hw : Grown s.world.log w) :
    Reading inv ds k path bytes { s with world := w } :=
  ⟨inv.called h.holds hw, inv.clear_called h.clear hw, content_called h.content hw⟩

variable (inv)

theorem report {path : Str} {bytes : Bytes} {start stop : Nat} (hread : job.request.read = none)
    (hpath : validPath path = true) (hmem : (start, stop) ∈ job.matcher bytes)
    (hphantom : phantom bytes start = false) :
    Triple (Reading inv ds k path bytes)
      (report job path (hex (job.engine.sha256 bytes)) bytes start stop)
      (fun _ => Reading inv ds k path bytes)
      fun code s => inv.Inv ds k s ∧ code ∈ walkCodes job.request := by
  have hcode : ∀ code ∈ [Code.matchEncoding, .limitReached], code ∈ walkCodes job.request :=
    fun code hc => List.mem_append_right _ (by rw [hread]; exact hc)
  refine Triple.get_bind fun s hs => Triple.ite (fun _ => Triple.fail ?_) fun hbounds => ?_
  · rintro _ rfl
    exact ⟨hs.holds, hcode _ (by decide)⟩
  · refine Triple.ite (fun _ => Triple.fail ?_) fun hroom => ?_
    · rintro _ rfl
      exact ⟨hs.holds, hcode _ (by decide)⟩
    · refine Triple.get_bind fun s' hs' => Triple.ite (fun _ => Triple.fail ?_) fun hfits => ?_
      · rintro _ rfl
        rw [hs']
        exact ⟨hs.holds, mem_walkCodes (by decide)⟩
      · apply Triple.modify
        rintro _ rfl
        subst hs'
        rw [Bool.not_eq_true', Bool.not_eq_false, Bool.and_eq_true] at hbounds
        exact ⟨inv.found hs.holds hs.clear hpath hs.content hread hmem hphantom hbounds.1 hbounds.2 hroom
          (Nat.not_lt.1 hfits), inv.clear_found hread hs.clear, ⟨hs.content.1, hs.content.2, hs.content.3⟩⟩

/-- Along the matches that are left. -/
theorem findIter {path : Str} {bytes : Bytes} (hread : job.request.read = none)
    (hpath : validPath path = true) : ∀ found : List (Nat × Nat),
    (∀ m ∈ found, m ∈ job.matcher bytes) →
      Triple (Reading inv ds k path bytes)
        (findIter job path (hex (job.engine.sha256 bytes)) bytes found)
        (fun _ => Reading inv ds k path bytes)
        fun code s => inv.Inv ds k s ∧ code ∈ walkCodes job.request
  | [], _ => Triple.pure fun _ hs => hs
  | (start, stop) :: rest, hsub => by
      have htail := findIter hread hpath rest fun m hm => hsub m (List.mem_cons_of_mem _ hm)
      refine Triple.bind (inv.inTime (fun _ _ hs hw => hs.called hw) fun _ hs => hs.holds) fun _ => ?_
      refine Triple.ite (fun _ => htail) fun hphantom => ?_
      exact Triple.bind (inv.report hread hpath (hsub _ List.mem_cons_self)
        (Bool.not_eq_true _ ▸ hphantom)) fun _ => htail

theorem readRange {bytes : Bytes} {read : ReadRequest} (hread : job.request.read = some read)
    (hpath : validPath read.path = true) :
    Triple (Reading inv ds k read.path bytes)
      (readRange job read.path (hex (job.engine.sha256 bytes)) bytes read) (fun _ => inv.Inv ds k)
      fun code s => inv.Inv ds k s ∧ code ∈ walkCodes job.request := by
  have hcode : ∀ code ∈ [Code.revisionMismatch, .invalidRequest], code ∈ walkCodes job.request :=
    fun code hc => List.mem_append_right _ (by rw [hread]; exact hc)
  refine Triple.get_bind fun s hs => Triple.ite (fun _ => Triple.fail ?_) fun hdigest => ?_
  · rintro _ rfl
    exact ⟨hs.holds, hcode _ (by decide)⟩
  · refine Triple.ite (fun _ => Triple.fail ?_) fun hbounds => ?_
    · rintro _ rfl
      exact ⟨hs.holds, hcode _ (by decide)⟩
    · refine Triple.ite (fun _ => Triple.fail ?_) fun hfits => ?_
      · rintro _ rfl
        exact ⟨hs.holds, mem_walkCodes (by decide)⟩
      · apply Triple.modify
        rintro _ rfl
        simp only [gt_iff_lt, Bool.or_eq_true, decide_eq_true_eq, Bool.not_eq_true', not_or, not_lt,
          Bool.not_eq_false] at hbounds
        refine inv.read hs.holds hs.clear hpath hs.content hread ?_ hbounds.1.1 hbounds.1.2 hbounds.2
          (Nat.not_lt.1 hfits)
        intro digest hd
        rw [hd] at hdigest
        simpa using hdigest

theorem searchBytes {path : Str} {bytes : Bytes} (hpath : validPath path = true)
    (hread : ∀ read, job.request.read = some read → read.path = path) :
    inv.Leads (Reading inv ds (k + 1) path bytes) ds k (searchBytes job path bytes) := by
  refine Triple.bind (inv.inTime (fun _ _ hs hw => hs.called hw) fun _ hs => inv.spare hs.holds) fun _ => ?_
  refine Triple.bind (Q := fun _ => Reading inv ds k path bytes) (Triple.modify fun s hs => ?_)
    fun _ => ?_
  · obtain ⟨fd, hfd⟩ := hs.content.captured
    exact ⟨inv.searched hs.holds hs.clear hpath hs.content, inv.clear_searched hs.clear,
      ⟨⟨fd, List.mem_append_left _ hfd⟩, hs.content.length, hs.content.text⟩⟩
  · cases hr : job.request.read with
    | some read =>
      have hp := hread read hr
      subst hp
      exact inv.readRange hr hpath
    | none =>
      refine Triple.ite (fun _ => Triple.pure fun _ hs => hs.holds) fun _ => ?_
      exact Triple.con (fun _ hs => hs) (inv.findIter hr hpath _ fun _ hm => hm)
        (fun _ _ hs => hs.holds) fun _ _ hs => hs

theorem searchFile {path : Str} (hpath : validPath path = true) (fd : φ) :
    inv.Leads (fun s => inv.Inv ds (k + 1) s ∧ inv.Clear false path s) ds k (searchFile job fd path) := by
  refine Triple.ite (fun _ => Triple.pure fun _ hs => inv.spare hs.1) fun hread => ?_
  refine Triple.attempt_bind (Q := fun content s => (inv.Inv ds (k + 1) s ∧ inv.Clear false path s)
      ∧ ∀ bytes, content = some bytes → Content job.request.maxFileBytes bytes s)
    (F := fun code s => inv.Inv ds (k + 1) s ∧ code ∈ captureCodes) ?_ ?_ ?_
  · -- the two captures: what they return is in the log
    intro s hs
    have hsafe := safe_captureTwice job fd path s.world.log s.world (Grown.refl _)
    rcases hrun : captureTwice job fd path s.world with ⟨code | content, w⟩
    · rw [hrun] at hsafe
      rw [Work.io, Exec.onPart_run, hrun]
      exact ⟨inv.called hs.1 hsafe.1, hsafe.2⟩
    · rw [hrun] at hsafe
      rw [Work.io, Exec.onPart_run, hrun]
      refine ⟨⟨inv.called hs.1 hsafe.1, inv.clear_called hs.2 hsafe.1⟩, fun bytes hb => ?_⟩
      subst hb
      obtain ⟨hlen, htext⟩ := hsafe.2 bytes rfl
      exact ⟨captureTwice_mem hrun, hlen, htext⟩
  · rintro (_ | bytes)
    · exact Triple.modify fun s hs => inv.excluded hs.1.1
    · refine Triple.con_pre (fun s hs => ⟨hs.1.1, hs.1.2, hs.2 bytes rfl⟩)
        (inv.searchBytes hpath fun read hr => ?_)
      rw [hr] at hread
      simpa using hread
  · intro code
    cases code
    case deadline => exact Triple.fail fun s hs => ⟨inv.spare hs.1, mem_walkCodes (by decide)⟩
    case readFailed => exact Triple.modify fun s hs => inv.failed hs.1 (.inl rfl)
    case sourceMutated => exact Triple.modify fun s hs => inv.failed hs.1 (.inr rfl)
    all_goals exact Triple.modify fun s hs => absurd hs.2 (by decide)

/-! ## §3 — the entries of a directory and the walk. -/

section Descend

variable {descend : φ → Str → Work σ φ Unit}
  (hd : ∀ ds k fd dir, inv.Leads (fun s => inv.Inv ds k s ∧ inv.Clear true dir s) ds k (descend fd dir))

include hd

theorem visitAllowed {path : Str} (hpath : validPath path = true) (node : φ) : ∀ kind : FileType,
    inv.Leads (fun s => inv.Inv ds (k + 1) s ∧ inv.Clear (kind == .directory) path s) ds k
      (visitAllowed job descend path node kind)
  | .directory => by
      refine Triple.attempt_bind (hd ds (k + 1) node path)
        (fun _ => Triple.pure fun _ hs => inv.spare hs) fun code => ?_
      -- a directory that cannot be read is a failure like any other; the other codes end the walk
      cases code
      case readFailed => exact Triple.modify fun _ hs => inv.failed hs.1 (.inl rfl)
      all_goals exact Triple.fail fun _ hs => ⟨inv.spare hs.1, hs.2⟩
  | .regularFile => inv.searchFile hpath node
  | .other => Triple.modify fun _ hs => inv.excluded hs.1

/-- What holds of an entry that the walk looks into. -/
structure Looking (dir name : Str) (ds : List Str) (k : Nat) (s : State σ φ) : Prop where
  holds : inv.Inv (dir :: ds) k s
  named : inv.Named dir name s
  candidate : Candidate job s.scope.toFilter (child dir name)

omit hd in
variable {inv} in
theorem Looking.called {dir name : Str} {s : State σ φ} {w : World σ φ}
    (h : Looking inv dir name ds k s) (hw : Grown s.world.log w) :
    Looking inv dir name ds k { s with world := w } :=
  ⟨inv.called h.holds hw, inv.named_called h.named hw, h.candidate⟩

theorem visitNode {dir name : Str} (node : φ) (metadata : Stat) :
    inv.Leads (Looking inv dir name ds (k + 1)) (dir :: ds) k
      (visitNode job descend (child dir name) node metadata) := by
  refine Triple.get_bind fun s hs => ?_
  refine Triple.bind (Q := fun _ s' => inv.Inv (dir :: ds) (k + 1) s' ∧
    (s.scope.allows job.engine (child dir name) (metadata.fileType == .directory) = true →
      inv.Clear (metadata.fileType == .directory) (child dir name) s')) (Triple.modify ?_) fun _ => ?_
  · rintro _ rfl
    exact ⟨inv.checked _ hs.holds hs.named hs.candidate,
      fun hallowed => inv.clear_checked hs.holds hs.named hs.candidate hallowed⟩
  · refine Triple.ite (fun hallowed => ?_) fun _ => Triple.modify fun _ h => inv.excluded h.1
    exact Triple.con_pre (fun _ h => ⟨h.1, h.2 hallowed⟩)
      (inv.visitAllowed hd hs.candidate.valid node metadata.fileType)

theorem visitPath {dir name : Str} :
    inv.Leads (Looking inv dir name ds (k + 1)) (dir :: ds) k
      (visitPath job descend (child dir name)) := by
  have hcall : ∀ {α : Type} {m : Io σ φ α}, Safe [.readFailed] (fun _ => True) m →
      Triple (Looking inv dir name ds (k + 1)) (Work.io m) (fun _ => Looking inv dir name ds (k + 1))
        fun code s => inv.Inv (dir :: ds) (k + 1) s ∧ code = .readFailed := by
    intro α m hm s hs
    refine Triple.onPart (hm s.world.log) (P := (· = s)) ?_ ?_ ?_ s rfl
    · rintro _ rfl
      exact Grown.refl _
    · rintro _ a w rfl hw
      exact hs.called hw.1
    · rintro _ code w rfl hw
      exact ⟨inv.called hs.holds hw.1, List.mem_singleton.1 hw.2⟩
  refine Triple.attempt_bind (hcall (safe_anchor (by decide) _)) (fun node => ?_) fun code =>
    Triple.modify fun s hs => inv.failed hs.1 (.inl hs.2)
  exact Triple.attempt_bind (hcall (safe_fstat (by decide) node))
    (fun metadata => inv.visitNode hd node metadata) fun code =>
      Triple.modify fun s hs => inv.failed hs.1 (.inl rfl)

theorem visitName (dir : Str) (n : DirName) :
    inv.Leads (fun s => inv.Inv (dir :: ds) (k + 1) s ∧
      ∀ name, Utf8.decode n.bytes = some name → inv.Named dir name s) (dir :: ds) k
      (visitName job descend dir n) := by
  unfold Worker.visitName
  split
  case h_1 => exact Triple.modify fun _ hs => inv.excluded hs.1
  case h_2 name hname =>
    refine Triple.get_bind fun s hs => Triple.ite (fun _ => Triple.modify ?_) fun hshown => ?_
    · rintro _ rfl
      exact inv.excluded hs.1
    · refine Triple.ite (fun _ => Triple.pure ?_) fun hahead => ?_
      · rintro _ rfl
        exact inv.spare hs.1
      · refine Triple.con_pre ?_ (inv.visitPath hd)
        rintro _ rfl
        simp only [Bool.or_eq_true, Bool.not_eq_true', not_or, Bool.not_eq_false,
          Bool.not_eq_true] at hshown
        exact ⟨hs.1, hs.2 name hname, hshown.1, hshown.2, Bool.not_eq_true _ ▸ hahead⟩

theorem visit (dir : Str) (n : DirName) :
    inv.Leads (fun s => inv.Inv (dir :: ds) k s ∧
      (isDots n = false → ∀ name, Utf8.decode n.bytes = some name → inv.Named dir name s))
      (dir :: ds) k (visit job descend dir n) := by
  refine Triple.ite (fun _ => Triple.pure fun _ hs => hs.1) fun hdots => ?_
  refine Triple.get_bind fun s hs => Triple.ite (fun _ => Triple.fail ?_) fun hroom => ?_
  · rintro _ rfl
    exact ⟨hs.1, mem_walkCodes (by decide)⟩
  · refine Triple.bind (Triple.modify ?_) fun _ => inv.visitName hd dir n
    rintro _ rfl
    refine ⟨inv.visited hs.1 hroom, fun name hname => inv.named_visited (hs.2 ?_ name hname)⟩
    exact Bool.not_eq_true _ ▸ hdots

/-- Along the stream of a directory. -/
theorem entries (dir : Str) : ∀ stream : Stream σ,
    inv.Leads (inv.Inv (dir :: ds) k) (dir :: ds) k (entries job descend dir stream)
  | .done => Triple.modify fun _ hs => inv.ended dir .done (fun _ h => by cases h) hs
  | .failed => by
      refine Triple.bind (Q := fun _ => inv.Inv (dir :: ds) k)
        (Triple.modify fun _ hs => inv.ended dir .failed (fun _ h => by cases h) hs) fun _ => ?_
      refine Triple.bind (inv.inTime (fun _ _ hs hw => inv.called hs hw) fun _ hs => hs) fun _ => ?_
      exact Triple.fail fun _ hs => ⟨hs, mem_walkCodes (by decide)⟩
  | .name n rest => by
      refine Triple.bind (Q := fun _ s => inv.Inv (dir :: ds) k s ∧ (isDots n = false →
        ∀ name, Utf8.decode n.bytes = some name → inv.Named dir name s)) (Triple.modify ?_) fun _ => ?_
      · exact fun s hs => ⟨inv.named n hs, fun hdots name hname => inv.named_name hs hdots hname⟩
      · refine Triple.bind (inv.inTime ?_ fun _ hs => hs.1) fun _ => ?_
        · exact fun s w hs hw => ⟨inv.called hs.1 hw,
            fun hdots name hname => inv.named_called (hs.2 hdots name hname) hw⟩
        · refine Triple.bind (inv.visit hd dir n) fun _ => Triple.get_bind fun s hs => ?_
          exact Triple.con_pre (fun _ h => h ▸ hs) (entries dir (rest s.world.os))

end Descend

/-- **A walk keeps its invariant**, and ends in one of its codes where it does not end well. -/
theorem walk : ∀ (levels : Nat) (ds : List Str) (k : Nat) (fd : φ) (dir : Str),
    inv.Leads (fun s => inv.Inv ds k s ∧ inv.Clear true dir s) ds k (walk job levels fd dir)
  | 0, ds, k, _, _ => by
      refine Triple.bind (inv.inTime (fun _ _ hs hw => ⟨inv.called hs.1 hw, inv.clear_called hs.2 hw⟩)
        fun _ hs => hs.1) fun _ => ?_
      exact Triple.modify fun _ hs => inv.tooDeep hs.1
  | levels + 1, ds, k, fd, dir => by
      refine Triple.bind (inv.inTime (fun _ _ hs hw => ⟨inv.called hs.1 hw, inv.clear_called hs.2 hw⟩)
        fun _ hs => hs.1) fun _ => ?_
      refine Triple.bind (Q := fun _ => inv.Inv (dir :: ds) k) ?_ fun _ => ?_
      · -- `enter` keeps the invariant and fails with its own codes
        intro s hs
        have hinv := inv.entered dir s hs
        have henter : EnterSafe (enter job.engine job.os job.deadline dir : Enter σ φ Unit) :=
          safe_enter dir
        have hcodes := henter s.world.log s.scope.toFilter ⟨s.world, s.scope⟩ ⟨Extended.refl _, rfl⟩
        rcases hrun : enter job.engine job.os job.deadline dir ⟨s.world, s.scope⟩ with ⟨code | ⟨⟩, e⟩
        · rw [Work.entering, Exec.onPart_run, hrun] at hinv ⊢
          rw [hrun] at hcodes
          refine ⟨hinv, mem_walkCodes ?_⟩
          exact List.mem_append_left [Code.byteLimit] hcodes.2
        · rw [Work.entering, Exec.onPart_run, hrun] at hinv ⊢
          exact hinv
      · refine Triple.bind (inv.io (safe_openDir job fd) (fun code hc => ?_)
          (fun _ _ hs hw => inv.called hs hw) fun _ hs => inv.leave hs) fun stream => ?_
        · rw [List.mem_singleton.1 hc]
          exact mem_walkCodes (by decide)
        · refine Triple.con (fun _ hs => hs.1)
            (inv.entries (fun ds k fd dir => walk levels ds k fd dir) dir stream)
            (fun _ _ hs => inv.leave hs) fun _ _ hs => ⟨inv.leave hs.1, hs.2⟩

end Invariant

/-! ## §4 — behind the walk. -/

/-- An error of the walk, as the issue it becomes. -/
def State.stopped (code : Code) (s : State σ φ) : State σ φ :=
  (if code = .readFailed ∨ code = .sourceMutated then s.failed else s).issue code

/-- From the state after the walk to the state after `traverse`, where the search goes on. -/
inductive Traversed (job : Job σ φ) : State σ φ → State σ φ → Prop where
  | well (s : State σ φ) : Traversed job s s
  | stopped (s : State σ φ) (code : Code) (h : code ∈ walkCodes job.request)
      (search : job.request.read = none) (plain : code ≠ .matchEncoding)
      (late : code = .deadline → s.result.hits ≠ []) : Traversed job s (s.stopped code)

/-- From the state after `traverse` to the state after `revalidate`. -/
inductive Revalidated (job : Job σ φ) : State σ φ → State σ φ → Prop where
  | same (s : State σ φ) (w : World σ φ)
      (h : verify job.os job.deadline s.scope.observations s.world = (.ok (), w)) :
      Revalidated job s { s with world := w }
  | changed (s : State σ φ) (code : Code) (w : World σ φ)
      (h : verify job.os job.deadline s.scope.observations s.world = (.error code, w)) :
      Revalidated job s ({ s with world := w }.issue code)

theorem Revalidated.grown {job : Job σ φ} {s s' : State σ φ} (h : Revalidated job s s') :
    Grown s.world.log s'.world := by
  have hverify : Safe policyCodes (fun _ => True) (verify job.os job.deadline s.scope.observations) :=
    safe_verify _
  have hsafe := hverify s.world.log s.world (Grown.refl _)
  cases h with
  | same w h =>
    rw [h] at hsafe
    exact hsafe.1
  | changed code w h =>
    rw [h] at hsafe
    exact hsafe.1

theorem Revalidated.code_mem {job : Job σ φ} {s : State σ φ} {code : Code} {w : World σ φ}
    (h : verify job.os job.deadline s.scope.observations s.world = (.error code, w)) :
    code ∈ policyCodes := by
  have hverify : Safe policyCodes (fun _ => True) (verify job.os job.deadline s.scope.observations) :=
    safe_verify _
  have hsafe := hverify s.world.log s.world (Grown.refl _)
  rw [h] at hsafe
  exact hsafe.2

/-- What `traverse` attempts: the walk, or nothing where only the scope is to be checked. -/
theorem Invariant.scan {job : Job σ φ} (inv : Invariant job) :
    inv.Leads (fun s => inv.Inv [] 0 s ∧ inv.Clear true [] s) [] 0
      (if job.request.validateScopeOnly then pure ()
        else Worker.walk job (job.request.maxDepth + 1) job.root []) :=
  Triple.ite (fun _ => Triple.pure fun _ hs => hs.1) fun _ => inv.walk _ [] 0 job.root []

theorem traverse_ok {job : Job σ φ} (inv : Invariant job) {s s' : State σ φ} (hs : inv.Inv [] 0 s)
    (hclear : inv.Clear true [] s) (h : traverse job s = (.ok (), s')) :
    ∃ s₁, inv.Inv [] 0 s₁ ∧ Traversed job s₁ s' := by
  obtain ⟨r, s₁, h₁, h⟩ := bind_ok h
  obtain ⟨hr, hs₁⟩ := Prod.mk.inj h₁
  rcases r with code | ⟨⟩
  · obtain ⟨_, _, h₂, h⟩ := bind_ok h
    obtain ⟨hs₂, rfl⟩ := Prod.mk.inj h₂
    cases hs₂
    split at h
    case isTrue => cases h
    case isFalse habort =>
      obtain ⟨-, rfl⟩ := Prod.mk.inj h
      simp only [Bool.or_eq_true, beq_iff_eq, Bool.and_eq_true, not_or, not_and,
        Bool.not_eq_true] at habort
      have hwalk := Triple.error (inv.scan) ⟨hs, hclear⟩ (Prod.ext (Except.ok.inj hr) hs₁)
      refine ⟨s₁, hwalk.1, .stopped s₁ code hwalk.2 ?_ habort.1.2 fun hd => ?_⟩
      · simpa using habort.1.1.1
      · simpa using habort.2 hd
  · obtain ⟨-, rfl⟩ := Prod.mk.inj h
    exact ⟨s₁, Triple.ok inv.scan ⟨hs, hclear⟩ (Prod.ext (Except.ok.inj hr) hs₁), .well s₁⟩

theorem revalidate_ok {job : Job σ φ} {s s' : State σ φ} (h : revalidate job s = (.ok (), s')) :
    Revalidated job s s' := by
  obtain ⟨_, _, h₁, h⟩ := bind_ok h
  obtain ⟨hs, rfl⟩ := Prod.mk.inj h₁
  cases hs
  obtain ⟨r, s₁, h₂, h⟩ := bind_ok h
  obtain ⟨hr, rfl⟩ := Prod.mk.inj h₂
  rcases r with code | ⟨⟩
  · obtain ⟨-, rfl⟩ := Prod.mk.inj h
    exact .changed s code _ (Prod.ext (Except.ok.inj hr) rfl)
  · obtain ⟨-, rfl⟩ := Prod.mk.inj h
    exact .same s _ (Prod.ext (Except.ok.inj hr) rfl)

/-- What `search` went through from the walk on, where it returned a success: `walked` is the state
behind the walk, `sorted` behind `traverse` and `ended` behind `revalidate`. -/
structure Concluded (job : Job σ φ) (walked sorted ended : State σ φ) (success : Success)
    (w : World σ φ) : Prop where
  traversed : Traversed job walked sorted
  revalidated : Revalidated job sorted ended
  /-- A read has no issue, and its hit. -/
  read : job.request.read.isSome = true → ended.result.reasons = [] ∧ ended.result.hits ≠ []
  success_eq : ∃ elapsed, success = { ended.result with
    policySnapshotHash := snapshotHash job.engine ended.scope.observations
    elapsedMs := job.engine.elapsedMs elapsed }
  log : w.log = ended.world.log

theorem Traversed.same {job : Job σ φ} {s s' : State σ φ} (h : Traversed job s s') :
    s'.result.hits = s.result.hits ∧ s'.world = s.world := by
  cases h with
  | well => exact ⟨rfl, rfl⟩
  | stopped code =>
    unfold State.stopped
    split <;> exact ⟨rfl, rfl⟩

namespace Concluded

variable {job : Job σ φ} {walked sorted ended : State σ φ} {success : Success} {w : World σ φ}

/-- The walk found all hits. -/
theorem hits (h : Concluded job walked sorted ended success w) :
    success.hits = walked.result.hits := by
  have hended : ended.result.hits = sorted.result.hits := by
    cases h.revalidated <;> rfl
  obtain ⟨elapsed, hsuccess⟩ := h.success_eq
  rw [hsuccess, ← h.traversed.same.1, ← hended]

theorem le (h : Concluded job walked sorted ended success w) : walked.world.log <+: w.log := by
  rw [h.log, ← h.traversed.same.2]
  exact h.revalidated.grown.le

end Concluded

/-- A success of `search`, with the invariant in the state behind the walk. -/
theorem conclude_ok {job : Job σ φ} (inv : Invariant job) {started : Nat} {s s' : State σ φ}
    {success : Success} (hs : inv.Inv [] 0 s) (hclear : inv.Clear true [] s)
    (h : conclude job started s = (.ok success, s')) :
    ∃ walked sorted ended, inv.Inv [] 0 walked ∧
      Concluded job walked sorted ended success s'.world := by
  obtain ⟨_, s₁, h₁, h⟩ := bind_ok h
  obtain ⟨_, s₂, h₂, h⟩ := bind_ok h
  obtain ⟨_, _, h₃, h⟩ := bind_ok h
  obtain ⟨hs₂, rfl⟩ := Prod.mk.inj h₃
  cases hs₂
  obtain ⟨walked, hwalked, htraversed⟩ := traverse_ok inv hs hclear h₁
  have hrevalidated := revalidate_ok h₂
  split at h
  case isTrue => cases h
  case isFalse hreasons =>
    split at h
    case isTrue => cases h
    case isFalse hhits =>
      obtain ⟨ended, s₃, h₄, h⟩ := bind_ok h
      obtain ⟨hsuccess, rfl⟩ := Prod.mk.inj h
      obtain ⟨-, rfl⟩ := Prod.mk.inj h₄
      refine ⟨walked, s₁, s₂, hwalked, htraversed, hrevalidated, fun hread => ?_,
        ⟨_, (Except.ok.inj hsuccess).symm⟩, rfl⟩
      rw [hread] at hreasons hhits
      simp only [Bool.true_and, Bool.not_eq_true', Bool.not_eq_false, List.isEmpty_iff] at hreasons hhits
      exact ⟨hreasons, hhits⟩

/-- A state with the scope of some state behind the walk, whose log has grown by calls since. -/
def Behind {job : Job σ φ} (inv : Invariant job) (s : State σ φ) : Prop :=
  ∃ walked, inv.Inv [] 0 walked ∧ s.scope = walked.scope ∧ Grown walked.world.log s.world

section Behind

variable {job : Job σ φ} (inv : Invariant job)

theorem behind_io {α : Type} {codes : List Code} {Q : α → Prop} {m : Io σ φ α} (h : Safe codes Q m) :
    Keeps (Behind inv) (Work.io m) := by
  rintro s ⟨walked, hinv, hscope, hgrown⟩
  refine Triple.onPart (h walked.world.log) (P := (· = s)) ?_ ?_ ?_ s rfl
  · rintro _ rfl
    exact hgrown
  · rintro _ _ w rfl hw
    exact ⟨walked, hinv, hscope, hw.1⟩
  · rintro _ _ w rfl hw
    exact ⟨walked, hinv, hscope, hw.1⟩

/-- However `search` ends from the walk on, the invariant held behind the walk. -/
theorem conclude_behind (started : Nat) :
    Triple (fun s => inv.Inv [] 0 s ∧ inv.Clear true [] s) (conclude job started)
      (fun _ => Behind inv) fun _ => Behind inv := by
  have hstart : ∀ s, inv.Inv [] 0 s → Behind inv s := fun s hs => ⟨s, hs, rfl, Grown.refl _⟩
  have hverify : ∀ o, Safe policyCodes (fun _ => True) (verify job.os job.deadline o) := safe_verify
  have hinstant : Safe [] (fun _ => True) job.os.instant := fun _ => Triple.call fun _ hw => ⟨hw, trivial⟩
  refine Triple.bind (Q := fun _ => Behind inv) ?_ fun _ => ?_
  · -- `traverse`: an error of the walk ends the search or is an issue
    refine Triple.attempt_bind inv.scan (fun _ => Triple.pure hstart) fun code => ?_
    refine Triple.get_bind fun s hs => Triple.ite (fun _ => Triple.fail ?_) fun _ => Triple.modify ?_
    · rintro _ rfl
      exact hstart _ hs.1
    · rintro s' rfl
      split <;> exact ⟨s', hs.1, rfl, Grown.refl _⟩
  · refine Keeps.bind (Keeps.get_bind fun s => Keeps.attempt_bind (behind_io inv (hverify _))
      (fun _ => Keeps.pure _) fun code => Keeps.modify fun s hs => hs) fun _ => Keeps.get_bind fun s => ?_
    refine Triple.ite (fun _ => Keeps.fail _) fun _ => Triple.ite (fun _ => Keeps.fail _) fun _ => ?_
    exact Keeps.bind (behind_io inv hinstant) fun _ => Keeps.pure _

end Behind

end JevGrep.Worker
