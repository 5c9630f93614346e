/-
# `JevGrep.Worker.Account` — what a complete result accounts for.

The system may answer every call of a run as it likes. A result that ends `complete` still has an
account: the log of the run is that of a walk in which every directory stream was read to its end and
every entry of it was excluded for a stated reason, searched, or walked in turn.

* §1 the account; §2 logs of the calls on one file; §3 policies; §4 tallies; §5 files; §6 the walk;
  §7 what an account says of single calls; §8 `search`.
-/
import JevGrep.Worker.Tree

namespace JevGrep.Worker

open JevGrep.Lib
open Exec (Triple Keeps bind_ok)

variable {σ φ : Type}

/-! ## §1 — the account. -/

/-- A successful call on an open file. -/
def FileCall : Event φ → Prop
  | .reopened _ _ (some _) | .stat _ (some _) | .read _ _ (some _) => True
  | _ => False

/-- The log of a `capture`. -/
inductive CaptureLog (fd : φ) (outcome : Except Code (Option Bytes)) : List (Event φ) → Prop where
  | mk (calls : List (Event φ)) (succeeded : ∀ e ∈ calls, FileCall e) :
      CaptureLog fd outcome (calls ++ [.captured fd outcome])

/-- The log of `policy_bytes` where it found `bytes`. -/
inductive PolicyLog (path : Str) : Option Bytes → List (Event φ) → Prop where
  | absent : PolicyLog path none [.policyOpened path (.error .noent)]
  | present (fd : φ) (bytes : Bytes) (log : List (Event φ))
      (captured : CaptureLog fd (.ok (some bytes)) log) :
      PolicyLog path (some bytes) (.policyOpened path (.ok fd) :: log)

/-- The log of `enter`, with what it observed. -/
inductive EnterLog (filter : Filter) (dir : Str) :
    List (Str × Option Bytes) → List (Event φ) → Prop where
  | off (h : filter.respectIgnore = false) : EnterLog filter dir [] []
  | on (h : filter.respectIgnore = true) (gitignore ignore : Option Bytes)
      (log₁ log₂ : List (Event φ)) (first : PolicyLog (child dir GITIGNORE) gitignore log₁)
      (second : PolicyLog (child dir IGNORE) ignore log₂) :
      EnterLog filter dir [(child dir GITIGNORE, gitignore), (child dir IGNORE, ignore)]
        (log₁ ++ [.policy (child dir GITIGNORE) gitignore]
          ++ (log₂ ++ [.policy (child dir IGNORE) ignore]))

/-- The log of the capture of a searched file: once, or a second time after a change underneath. -/
inductive FileLog (fd : φ) (path : Str) (content : Option Bytes) : List (Event φ) → Prop where
  | once (log : List (Event φ)) (captured : CaptureLog fd (.ok content) log) :
      FileLog fd path content log
  | again (fresh : φ) (log₁ log₂ : List (Event φ))
      (mutated : CaptureLog fd (.error .sourceMutated) log₁)
      (captured : CaptureLog fresh (.ok content) log₂) :
      FileLog fd path content (log₁ ++ .opened path (.ok fresh) :: log₂)

/-- What a part of a walk adds to the result. -/
structure Tally where
  counts : Counts := {}
  hits : List Hit := []
  observed : List (Str × Option Bytes) := []

/-- Counts and tallies add up field by field. -/
def Counts.add (a b : Counts) : Counts where
  visited := a.visited + b.visited
  searched := a.searched + b.searched
  excluded := a.excluded + b.excluded
  failed := a.failed + b.failed
  bytesRead := a.bytesRead + b.bytesRead

def Tally.add (a b : Tally) : Tally where
  counts := a.counts.add b.counts
  hits := a.hits ++ b.hits
  observed := a.observed ++ b.observed

/-- What one entry, one exclusion and one file add. -/
def Tally.visitedOne : Tally := { counts := { visited := 1 } }

def Tally.excludedOne : Tally := { counts := { excluded := 1 } }

def Tally.ofFile (engine : Engine) (matcher : Bytes → List (Nat × Nat)) (path : Str) (bytes : Bytes) :
    Tally where
  counts := { searched := 1, bytesRead := bytes.length }
  hits := fileHits engine matcher path bytes

/-- The log of an entry that was opened, inspected and asked about. -/
def askedLog (path : Str) (node : φ) (metadata : Stat) (rules : Rules) : List (Event φ) :=
  [.opened path (.ok node), .stat node (some metadata),
    .checked path (metadata.fileType == .directory) rules]

section Account

variable (engine : Engine) (matcher : Bytes → List (Nat × Nat)) (filter : Filter)

/-- The verdict on an entry that was asked about. -/
structure Ruled (dir : Str) (n : DirName) (path : Str) (metadata : Stat) (rules : Rules)
    (verdict : Bool) : Prop where
  named : ∃ name, Utf8.decode n.bytes = some name ∧ path = child dir name
  valid : validPath path = true
  shown : filter.excludedPath path = false
  allowed : filter.allowsUnder engine rules path (metadata.fileType == .directory) = verdict

mutual

/-- The log of a walk of a directory with `levels` levels left, and what it adds. -/
inductive WalkLog : Nat → φ → Str → Tally → List (Event φ) → Prop where
  | mk (levels : Nat) (fd readable : φ) (dir : Str) (observed : List (Str × Option Bytes)) (t : Tally)
      (log₁ log₂ : List (Event φ)) (entered : EnterLog filter dir observed log₁)
      (stream : StreamLog levels dir t log₂) :
      WalkLog (levels + 1) fd dir (Tally.add { observed } t)
        (log₁ ++ .reopened fd true (some readable) :: .listed readable true :: log₂)

/-- The log of a directory stream read to its end. -/
inductive StreamLog : Nat → Str → Tally → List (Event φ) → Prop where
  | done (levels : Nat) (dir : Str) : StreamLog levels dir {} [.entry dir .done]
  | dots (levels : Nat) (dir : Str) (n : DirName) (t : Tally) (log : List (Event φ))
      (h : isDots n = true) (rest : StreamLog levels dir t log) :
      StreamLog levels dir t (.entry dir (.name n) :: log)
  | entry (levels : Nat) (dir : Str) (n : DirName) (t₁ t₂ : Tally) (log₁ log₂ : List (Event φ))
      (h : isDots n = false) (first : EntryLog levels dir n t₁ log₁)
      (rest : StreamLog levels dir t₂ log₂) :
      StreamLog levels dir ((Tally.visitedOne.add t₁).add t₂) (.entry dir (.name n) :: (log₁ ++ log₂))

/-- The log of one entry: excluded for a stated reason, searched, or walked. -/
inductive EntryLog : Nat → Str → DirName → Tally → List (Event φ) → Prop where
  | notUtf8 (levels : Nat) (dir : Str) (n : DirName) (h : Utf8.decode n.bytes = none) :
      EntryLog levels dir n .excludedOne []
  | unlisted (levels : Nat) (dir : Str) (n : DirName) (name : Str)
      (h : Utf8.decode n.bytes = some name)
      (why : validPath (child dir name) = false ∨ filter.excludedPath (child dir name) = true) :
      EntryLog levels dir n .excludedOne []
  | refused (levels : Nat) (dir : Str) (n : DirName) (path : Str) (node : φ) (metadata : Stat)
      (rules : Rules) (h : Ruled engine filter dir n path metadata rules false) :
      EntryLog levels dir n .excludedOne (askedLog path node metadata rules)
  | special (levels : Nat) (dir : Str) (n : DirName) (path : Str) (node : φ) (metadata : Stat)
      (rules : Rules) (h : Ruled engine filter dir n path metadata rules true)
      (kind : metadata.fileType = .other) :
      EntryLog levels dir n .excludedOne (askedLog path node metadata rules)
  /-- Oversized, binary or not UTF-8. -/
  | unreadable (levels : Nat) (dir : Str) (n : DirName) (path : Str) (node : φ) (metadata : Stat)
      (rules : Rules) (log : List (Event φ)) (h : Ruled engine filter dir n path metadata rules true)
      (kind : metadata.fileType = .regularFile) (file : FileLog node path none log) :
      EntryLog levels dir n .excludedOne (askedLog path node metadata rules ++ log)
  | searched (levels : Nat) (dir : Str) (n : DirName) (path : Str) (node : φ) (metadata : Stat)
      (rules : Rules) (bytes : Bytes) (log : List (Event φ))
      (h : Ruled engine filter dir n path metadata rules true) (kind : metadata.fileType = .regularFile)
      (file : FileLog node path (some bytes) log) :
      EntryLog levels dir n (.ofFile engine matcher path bytes)
        (askedLog path node metadata rules ++ (log ++ [.searched path]))
  | walked (levels : Nat) (dir : Str) (n : DirName) (path : Str) (node : φ) (metadata : Stat)
      (rules : Rules) (t : Tally) (log : List (Event φ))
      (h : Ruled engine filter dir n path metadata rules true) (kind : metadata.fileType = .directory)
      (walk : WalkLog levels node path t log) :
      EntryLog levels dir n t (askedLog path node metadata rules ++ log)

end

end Account

/-! ## §2 — logs of the calls on one file. -/

section Io

variable {os : Os σ φ} {deadline : Nat}

/-- The log is `before` and successful calls on one file. -/
def Logged (before : List (Event φ)) (w : World σ φ) : Prop :=
  ∃ calls, w.log = before ++ calls ∧ ∀ e ∈ calls, FileCall e

theorem Logged.snoc {before : List (Event φ)} {w : World σ φ} (h : Logged before w) {e : Event φ}
    (he : FileCall e) {s : σ} : Logged before { os := s, log := w.log ++ [e] } := by
  obtain ⟨calls, hlog, hcalls⟩ := h
  refine ⟨calls ++ [e], by simp [hlog], fun x hx => ?_⟩
  rcases List.mem_append.1 hx with hx | hx
  · exact hcalls x hx
  · rwa [List.mem_singleton.1 hx]

/-- What a part of `capture` leaves: successful calls, also where it found the file changed. -/
def Quietly {α : Type} (before : List (Event φ)) (m : Io σ φ α) : Prop :=
  Triple (Logged before) m (fun _ => Logged before) fun e w => e = .sourceMutated → Logged before w

variable {before : List (Event φ)}

theorem quietly_expired : Quietly before (expired os deadline) := by
  refine Triple.bind (Q := fun _ => Logged before) (Triple.call fun w h => h) fun now => ?_
  exact Triple.ite (fun _ => Triple.fail fun w _ he => by cases he) fun _ => Triple.pure fun w h => h

/-- A call whose outcome is checked on the spot. -/
theorem quietly_asked {α : Type} (f : σ → Option α × σ) (record : Option α → Event φ)
    (h : ∀ a, FileCall (record (some a))) :
    Quietly before (do orReadFailed (← Exec.call (Os.asked f record)) : Io σ φ α) := by
  refine Triple.bind (Q := fun r w => ∀ a, r = some a → Logged before w) (Triple.call ?_) ?_
  · intro w hw a ha
    show Logged before ⟨(f w.os).2, w.log ++ [record (f w.os).1]⟩
    have ha' : (f w.os).1 = some a := ha
    rw [ha']
    exact hw.snoc (h a)
  · rintro (_ | a)
    · exact Triple.fail fun w _ he => by cases he
    · exact Triple.pure fun w hw => hw a rfl

theorem quietly_reopen (fd : φ) (directory : Bool) : Quietly before (reopen os fd directory) :=
  quietly_asked _ _ fun _ => trivial

theorem quietly_fstat (fd : φ) : Quietly before (fstat os fd) := quietly_asked _ _ fun _ => trivial

theorem Quietly.bind {α β : Type} {m : Io σ φ α} {f : α → Io σ φ β} (hm : Quietly before m)
    (hf : ∀ a, Quietly before (f a)) : Quietly before (m >>= f) := Triple.bind hm hf

theorem quietly_pure {α : Type} (a : α) : Quietly before (pure a : Io σ φ α) :=
  Triple.pure fun _ h => h

theorem quietly_mutated {α : Type} : Quietly before (.fail .sourceMutated : Io σ φ α) :=
  Triple.fail fun _ h _ => h

theorem quietly_readAll (fd : φ) (limit : Nat) : ∀ (rounds : Nat) (bytes : Bytes),
    Quietly before (readAll os deadline fd limit rounds bytes)
  | 0, _ => quietly_mutated
  | rounds + 1, bytes => by
      refine quietly_expired.bind fun _ => ?_
      have hread : Quietly before (readChunk os fd (min CHUNK (limit + 1 - bytes.length))) :=
        quietly_asked _ _ fun _ => trivial
      refine hread.bind fun chunk => ?_
      refine Triple.ite (fun _ => quietly_pure bytes) fun _ => ?_
      exact Triple.ite (fun _ => quietly_mutated) fun _ => quietly_readAll fd limit rounds _

theorem quietly_inspect (fd : φ) (limit : Nat) : Quietly before (inspect os deadline fd limit) := by
  refine quietly_expired.bind fun _ => (quietly_fstat fd).bind fun stat => ?_
  refine Triple.ite (fun _ => quietly_pure none) fun _ => ?_
  refine quietly_expired.bind fun _ => (quietly_reopen fd false).bind fun readable =>
    (quietly_fstat readable).bind fun opened => ?_
  refine Triple.ite (fun _ => quietly_mutated) fun _ => ?_
  refine (quietly_readAll readable limit _ _).bind fun bytes =>
    (quietly_fstat readable).bind fun after => ?_
  exact Triple.ite (fun _ => quietly_mutated) fun _ => quietly_pure _

/-- The log of a capture that went well, or found the file changed. -/
theorem capture_log {fd : φ} {limit : Nat} {w w' : World σ φ} {r : Except Code (Option Bytes)}
    (h : capture os deadline fd limit w = (r, w')) (hr : ∀ e, r = .error e → e = .sourceMutated) :
    ∃ log, CaptureLog fd r log ∧ w'.log = w.log ++ log := by
  have hinspect : Quietly w.log (inspect os deadline fd limit) := quietly_inspect fd limit
  have hq := hinspect w (⟨[], by simp, by simp⟩ : Logged w.log w)
  simp only [capture, recorded, Prod.mk.injEq] at h
  obtain ⟨hr', rfl⟩ := h
  have hlogged : Logged w.log (inspect os deadline fd limit w).2 := by
    rcases hi : inspect os deadline fd limit w with ⟨e | out, w₁⟩ <;> rw [hi] at hq hr'
    · exact hq (hr e hr'.symm)
    · exact hq
  obtain ⟨calls, hlog, hcalls⟩ := hlogged
  exact ⟨_, .mk calls hcalls, by simp [hlog, hr']⟩

theorem anchor_log {path : Str} {w w' : World σ φ} {fd : φ}
    (h : anchor os path w = (.ok fd, w')) : w'.log = w.log ++ [.opened path (.ok fd)] := by
  obtain ⟨r, w₁, h₁, h⟩ := bind_ok h
  obtain ⟨hr, rfl⟩ := Prod.mk.inj h₁
  rcases r with errno | fd'
  · cases h
  · obtain ⟨hf, rfl⟩ := Prod.mk.inj h
    cases hf
    show w.log ++ [Event.opened path _] = _
    rw [← Except.ok.inj hr]
    rfl

/-- A call whose outcome is checked on the spot, where it succeeds. -/
theorem asked_log {α : Type} {f : σ → Option α × σ} {record : Option α → Event φ} {w w' : World σ φ}
    {a : α} (h : (do orReadFailed (← Exec.call (Os.asked f record)) : Io σ φ α) w = (.ok a, w')) :
    w'.log = w.log ++ [record (some a)] := by
  obtain ⟨r, w₁, h₁, h⟩ := bind_ok h
  obtain ⟨hr, rfl⟩ := Prod.mk.inj h₁
  rcases r with _ | a'
  · cases h
  · obtain ⟨ha, rfl⟩ := Prod.mk.inj h
    cases ha
    show w.log ++ [record _] = _
    rw [← Except.ok.inj hr]
    rfl

theorem fstat_log {fd : φ} {w w' : World σ φ} {stat : Stat} (h : fstat os fd w = (.ok stat, w')) :
    w'.log = w.log ++ [.stat fd (some stat)] :=
  asked_log h

theorem openDir_log {job : Job σ φ} {fd : φ} {w w' : World σ φ} {stream : Stream σ}
    (h : openDir job fd w = (.ok stream, w')) : ∃ readable,
      w'.log = w.log ++ [.reopened fd true (some readable), .listed readable true] := by
  obtain ⟨readable, w₁, h₁, h⟩ := bind_ok h
  have hre : w₁.log = w.log ++ [.reopened fd true (some readable)] := asked_log h₁
  have hdir : w'.log = w₁.log ++ [.listed readable true] := asked_log h
  exact ⟨readable, by rw [hdir, hre, List.append_assoc]; rfl⟩

/-! ## §3 — policies. -/

theorem expired_ok {w w' : World σ φ} (h : expired os deadline w = (.ok (), w')) : w'.log = w.log := by
  obtain ⟨now, w₁, h₁, h₂⟩ := bind_ok h
  obtain ⟨-, rfl⟩ := Prod.mk.inj h₁
  split at h₂
  · cases h₂
  · obtain ⟨-, rfl⟩ := Prod.mk.inj h₂
    rfl

theorem policyContent_log {fd : φ} {w w' : World σ φ} {bytes : Bytes}
    (h : policyContent os deadline fd w = (.ok bytes, w')) :
    ∃ log, CaptureLog fd (.ok (some bytes)) log ∧ w'.log = w.log ++ log := by
  obtain ⟨r, w₁, h₁, h₂⟩ := bind_ok h
  obtain ⟨hr, rfl⟩ := Prod.mk.inj h₁
  have hc : capture os deadline fd 65536 w = (r, (capture os deadline fd 65536 w).2) := by
    rw [← Except.ok.inj hr]
  rcases r with code | _ | content
  · cases code <;> cases h₂
  · cases h₂
  · obtain ⟨hb, rfl⟩ := Prod.mk.inj h₂
    cases hb
    exact capture_log hc fun e he => by cases he

theorem policyBytes_log {path : Str} {w w' : World σ φ} {bytes : Option Bytes}
    (h : policyBytes os deadline path w = (.ok bytes, w')) :
    ∃ log, PolicyLog path bytes log ∧ w'.log = w.log ++ log := by
  obtain ⟨_, w₁, h₁, h⟩ := bind_ok h
  have hw₁ := expired_ok h₁
  obtain ⟨r, w₂, h₂, h⟩ := bind_ok h
  obtain ⟨hr, hw₂⟩ := Prod.mk.inj h₂
  have hlog₂ : w₂.log = w.log ++ [.policyOpened path r] := by
    rw [← hw₂, ← Except.ok.inj hr]
    simp [Os.asked, hw₁]
  rcases r with (_ | _) | fd
  · -- the file is absent
    obtain ⟨hb, rfl⟩ := Prod.mk.inj h
    cases hb
    exact ⟨_, .absent, hlog₂⟩
  · cases h
  · obtain ⟨content, w₃, h₃, h⟩ := bind_ok h
    obtain ⟨hb, rfl⟩ := Prod.mk.inj h
    cases hb
    obtain ⟨log, hcap, hlog₃⟩ := policyContent_log h₃
    exact ⟨_, .present fd content log hcap, by simp [hlog₃, hlog₂]⟩

variable {engine : Engine}

/-- What feeding lines to a builder leaves alone. -/
def Aside (log : List (Event φ)) (filter : Filter) (observations : List (Str × Option Bytes))
    (e : Entering σ φ) : Prop :=
  e.world.log = log ∧ e.scope.toFilter = filter ∧ e.scope.observations = observations

variable {log : List (Event φ)} {filter : Filter} {observations : List (Str × Option Bytes)}

theorem keeps_expired : Keeps (fun w : World σ φ => w.log = log) (expired os deadline) := by
  refine Triple.bind (Q := fun _ w => w.log = log) (Triple.call fun w h => h) fun now => ?_
  exact Triple.ite (fun _ => Keeps.fail _) fun _ => Keeps.pure _

theorem aside_addLines : ∀ (lines : List Str) (builder : Gitignore),
    Keeps (Aside log filter observations)
      (addLines engine os deadline builder lines : Enter σ φ Gitignore)
  | [], _ => Keeps.pure _
  | line :: lines, builder => by
      have htime : Keeps (Aside log filter observations) (Enter.io (expired os deadline)) :=
        Triple.onPart keeps_expired (fun _ h => h.1) (fun _ _ _ h hw => ⟨hw, h.2⟩)
          fun _ _ _ h hw => ⟨hw, h.2⟩
      refine htime.bind fun _ => Keeps.bind (Keeps.modify ?_) fun _ => Keeps.get_bind fun s => ?_
      · exact fun _ h => h
      · refine Triple.ite (fun _ => Keeps.fail _) fun _ => ?_
        exact Triple.ite (fun _ => aside_addLines lines _) fun _ => Keeps.fail _

theorem aside_addContent (bytes : Bytes) (builder : Gitignore) :
    Keeps (Aside log filter observations)
      (addContent engine os deadline builder bytes : Enter σ φ Gitignore) := by
  refine Keeps.bind (Keeps.modify ?_) fun _ => Keeps.get_bind fun s => ?_
  · exact fun _ h => h
  · refine Triple.ite (fun _ => Keeps.fail _) fun _ => ?_
    split
    · exact Keeps.fail _
    · exact aside_addLines _ _

theorem aside_addFound (builder : Gitignore) : ∀ bytes : Option Bytes,
    Keeps (Aside log filter observations)
      (addFound engine os deadline builder bytes : Enter σ φ Gitignore)
  | none => Keeps.pure _
  | some bytes => aside_addContent bytes builder

theorem io_ok {α : Type} {m : Io σ φ α} {e e' : Entering σ φ} {a : α}
    (h : Enter.io m e = (.ok a, e')) :
    ∃ w', m e.world = (.ok a, w') ∧ e' = { e with world := w' } := by
  obtain ⟨h₁, h₂⟩ := Prod.mk.inj h
  exact ⟨_, Prod.ext h₁ rfl, h₂.symm⟩

/-- One ignore file: its log, and its observation recorded. -/
structure Loaded (path : Str) (bytes : Option Bytes) (e e' : Entering σ φ) : Prop where
  log : ∃ log, PolicyLog path bytes log ∧
    e'.world.log = e.world.log ++ (log ++ [.policy path bytes])
  filter : e'.scope.toFilter = e.scope.toFilter
  observations : e'.scope.observations = observe path bytes e.scope.observations

theorem load_log {dir name : Str} {e e' : Entering σ φ} {g : Gitignore}
    (h : load engine os deadline dir name e = (.ok g, e')) :
    ∃ bytes, Loaded (child dir name) bytes e e' := by
  obtain ⟨bytes, e₁, h₁, h⟩ := bind_ok h
  obtain ⟨w₁, hw₁, rfl⟩ := io_ok h₁
  obtain ⟨log, hlog, hw₁⟩ := policyBytes_log hw₁
  obtain ⟨_, e₂, h₂, h⟩ := bind_ok h
  obtain ⟨-, rfl⟩ := Prod.mk.inj h₂
  obtain ⟨builder, e₃, h₃, h⟩ := bind_ok h
  -- only the builder and the two counters move while the lines are fed
  have haside : Aside (e.world.log ++ (log ++ [.policy (child dir name) bytes]))
      e.scope.toFilter e.scope.observations e₃ := by
    have hstart : Aside (e.world.log ++ (log ++ [.policy (child dir name) bytes]))
        e.scope.toFilter e.scope.observations
        { world := w₁.note (.policy (child dir name) bytes), scope := e.scope } :=
      ⟨by simp [hw₁], rfl, rfl⟩
    exact Triple.ok (aside_addFound _ bytes) hstart h₃
  obtain ⟨_, e₄, h₄, h⟩ := bind_ok h
  obtain ⟨-, rfl⟩ := Prod.mk.inj h₄
  split at h
  · obtain ⟨-, rfl⟩ := Prod.mk.inj h
    exact ⟨bytes, ⟨log, hlog, haside.1⟩, haside.2.1, by rw [← haside.2.2]⟩
  · cases h

theorem enter_log {dir : Str} {e e' : Entering σ φ}
    (h : enter engine os deadline dir e = (.ok (), e')) :
    ∃ observed log, EnterLog e.scope.toFilter dir observed log ∧
      e'.world.log = e.world.log ++ log ∧ e'.scope.toFilter = e.scope.toFilter ∧
      e'.scope.observations = observed.foldl (fun o x => observe x.1 x.2 o) e.scope.observations := by
  obtain ⟨_, _, h₁, h⟩ := bind_ok h
  obtain ⟨hs, rfl⟩ := Prod.mk.inj h₁
  cases hs
  split at h
  case isFalse hoff =>
    obtain ⟨-, rfl⟩ := Prod.mk.inj h
    exact ⟨[], [], .off (by simpa using hoff), by simp, rfl, rfl⟩
  case isTrue hon =>
    obtain ⟨_, _, h₁, h⟩ := bind_ok h
    obtain ⟨hs, rfl⟩ := Prod.mk.inj h₁
    cases hs
    split at h
    · cases h
    · obtain ⟨g, e₁, h₁, h⟩ := bind_ok h
      obtain ⟨gitignore, hg⟩ := load_log h₁
      obtain ⟨i, e₂, h₂, h⟩ := bind_ok h
      obtain ⟨ignore, hi⟩ := load_log h₂
      obtain ⟨-, rfl⟩ := Prod.mk.inj h
      obtain ⟨log₁, hlog₁, hw₁⟩ := hg.log
      obtain ⟨log₂, hlog₂, hw₂⟩ := hi.log
      refine ⟨_, _, .on hon gitignore ignore log₁ log₂ hlog₁ hlog₂, ?_, ?_, ?_⟩
      · simp [hw₁, hw₂]
      · show e₂.scope.toFilter = _
        rw [hi.filter, hg.filter]
      · show e₂.scope.observations = _
        rw [hi.observations, hg.observations]
        rfl

/-- The log of `verify`: every observation found again. -/
inductive VerifyLog : List (Str × Option Bytes) → List (Event φ) → Prop where
  | nil : VerifyLog [] []
  | cons (path : Str) (bytes : Option Bytes) (rest : List (Str × Option Bytes))
      (log₁ log₂ : List (Event φ)) (same : PolicyLog path bytes log₁) (others : VerifyLog rest log₂) :
      VerifyLog ((path, bytes) :: rest) (log₁ ++ log₂)

theorem verify_log : ∀ {observations : List (Str × Option Bytes)} {w w' : World σ φ},
    verify os deadline observations w = (.ok (), w') →
      ∃ log, VerifyLog observations log ∧ w'.log = w.log ++ log
  | [], w, w', h => by
      obtain ⟨-, rfl⟩ := Prod.mk.inj h
      exact ⟨[], .nil, by simp⟩
  | (path, captured) :: rest, w, w', h => by
      obtain ⟨bytes, w₁, h₁, h₂⟩ := bind_ok h
      by_cases heq : bytes = captured
      case neg =>
        rw [if_neg heq] at h₂
        cases h₂
      case pos =>
        rw [if_pos heq] at h₂
        obtain ⟨log₁, hlog₁, hw₁⟩ := policyBytes_log h₁
        obtain ⟨log₂, hlog₂, hw₂⟩ := verify_log h₂
        subst heq
        exact ⟨_, .cons path bytes rest log₁ log₂ hlog₁ hlog₂, by simp [hw₁, hw₂]⟩

end Io

/-! ## §4 — tallies. -/

theorem Counts.add_assoc (a b c : Counts) : (a.add b).add c = a.add (b.add c) := by
  simp [Counts.add, Nat.add_assoc]

theorem Counts.add_zero (a : Counts) : a.add {} = a := rfl

/-- What a part of a run did: its log, and what it added. -/
structure Gained (s : State σ φ) (log : List (Event φ)) (t : Tally) (s' : State σ φ) : Prop where
  log : s'.world.log = s.world.log ++ log
  filter : s'.scope.toFilter = s.scope.toFilter
  observations : s'.scope.observations =
    t.observed.foldl (fun o x => observe x.1 x.2 o) s.scope.observations
  hits : s'.result.hits = s.result.hits ++ t.hits
  counts : s'.result.counts = s.result.counts.add t.counts
  reasons : s'.result.reasons = s.result.reasons

namespace Gained

variable {s s₁ s' : State σ φ} {log log₁ log₂ : List (Event φ)} {t t₁ t₂ : Tally}

theorem trans (h₁ : Gained s log₁ t₁ s₁) (h₂ : Gained s₁ log₂ t₂ s') :
    Gained s (log₁ ++ log₂) (t₁.add t₂) s' where
  log := by rw [h₂.log, h₁.log, List.append_assoc]
  filter := h₂.filter.trans h₁.filter
  observations := by rw [h₂.observations, h₁.observations, Tally.add, List.foldl_append]
  hits := by rw [h₂.hits, h₁.hits, Tally.add, List.append_assoc]
  counts := by rw [h₂.counts, h₁.counts, Tally.add, Counts.add_assoc]
  reasons := h₂.reasons.trans h₁.reasons

/-- A part that added nothing. -/
theorem then_quiet (h₁ : Gained s log₁ t s₁) (h₂ : Gained s₁ log₂ {} s') :
    Gained s (log₁ ++ log₂) t s' := by
  have h := h₁.trans h₂
  rwa [show t.add {} = t by simp [Tally.add, Counts.add]] at h

theorem quiet_then (h₁ : Gained s log₁ {} s₁) (h₂ : Gained s₁ log₂ t s') :
    Gained s (log₁ ++ log₂) t s' := by
  have h := h₁.trans h₂
  rwa [show Tally.add {} t = t by simp [Tally.add, Counts.add]] at h

theorem refl (s : State σ φ) : Gained s [] {} s :=
  ⟨by simp, rfl, rfl, by simp, rfl, rfl⟩

theorem note (e : Event φ) (s : State σ φ) : Gained s [e] {} (s.note e) :=
  ⟨rfl, rfl, rfl, by simp [State.note], rfl, rfl⟩

/-- A part that only talked to the system. -/
theorem io {w : World σ φ} (h : w.log = s.world.log ++ log) :
    Gained s log {} { s with world := w } :=
  ⟨h, rfl, rfl, by simp, rfl, rfl⟩

theorem excluded (s : State σ φ) : Gained s [] .excludedOne s.excluded :=
  ⟨by simp [State.excluded], rfl, rfl, by simp [State.excluded, Success.excluded, Tally.excludedOne], rfl, rfl⟩

theorem visited (s : State σ φ) : Gained s [] .visitedOne s.visited :=
  ⟨by simp [State.visited], rfl, rfl, by simp [State.visited, Success.visited, Tally.visitedOne], rfl, rfl⟩

end Gained

/-! ## §5 — files. -/

theorem Work.io_ok {α : Type} {m : Io σ φ α} {s s' : State σ φ} {a : α}
    (h : Work.io m s = (.ok a, s')) :
    ∃ w', m s.world = (.ok a, w') ∧ s' = { s with world := w' } := by
  obtain ⟨h₁, h₂⟩ := Prod.mk.inj h
  exact ⟨_, Prod.ext h₁ rfl, h₂.symm⟩

section Job

variable {job : Job σ φ}

theorem inTime_gained {s s' : State σ φ} (h : inTime job s = (.ok (), s')) : Gained s [] {} s' := by
  obtain ⟨w, hw, rfl⟩ := Work.io_ok h
  exact Gained.io (by simp [expired_ok hw])

theorem keepHit_gained {hit : Hit} {s s' : State σ φ} (h : keepHit job hit s = (.ok (), s')) :
    Gained s [] { hits := [hit] } s' := by
  obtain ⟨_, _, h₁, h⟩ := bind_ok h
  obtain ⟨hs, rfl⟩ := Prod.mk.inj h₁
  cases hs
  split at h
  · cases h
  · obtain ⟨-, rfl⟩ := Prod.mk.inj h
    exact ⟨by simp [State.push, State.charge], rfl, rfl, rfl, rfl, rfl⟩

theorem report_gained {path digest : Str} {bytes : Bytes} {start stop : Nat} {s s' : State σ φ}
    (h : report job path digest bytes start stop s = (.ok (), s')) :
    Gained s [] { hits := [matchHit path digest bytes start stop] } s' := by
  obtain ⟨_, _, h₁, h⟩ := bind_ok h
  obtain ⟨-, rfl⟩ := Prod.mk.inj h₁
  split at h
  · cases h
  · split at h
    · cases h
    · exact keepHit_gained h

/-- The hits of matches, phantoms left out. -/
def hitsOf (path digest : Str) (bytes : Bytes) (found : List (Nat × Nat)) : List Hit :=
  (found.filter fun m => !phantom bytes m.1).map fun m => matchHit path digest bytes m.1 m.2

theorem findIter_gained {path digest : Str} {bytes : Bytes} : ∀ {found : List (Nat × Nat)}
    {s s' : State σ φ}, findIter job path digest bytes found s = (.ok (), s') →
      Gained s [] { hits := hitsOf path digest bytes found } s'
  | [], s, s', h => by
      obtain ⟨-, rfl⟩ := Prod.mk.inj h
      exact Gained.refl s
  | (start, stop) :: rest, s, s', h => by
      obtain ⟨_, s₁, h₁, h⟩ := bind_ok h
      have ht := inTime_gained h₁
      by_cases hp : phantom bytes start = true
      · rw [if_pos hp] at h
        have hrest := ht.quiet_then (findIter_gained h)
        simpa [hitsOf, hp] using hrest
      · rw [if_neg hp] at h
        obtain ⟨_, s₂, h₂, h⟩ := bind_ok h
        have hrest := (ht.quiet_then (report_gained h₂)).trans (findIter_gained h)
        simpa [hitsOf, hp, Tally.add, Counts.add] using hrest

theorem searchBytes_gained (hread : job.request.read = none) {path : Str} {bytes : Bytes}
    {s s' : State σ φ} (h : searchBytes job path bytes s = (.ok (), s')) :
    Gained s [.searched path] (.ofFile job.engine job.matcher path bytes) s' := by
  obtain ⟨_, s₁, h₁, h⟩ := bind_ok h
  obtain ⟨_, s₂, h₂, h⟩ := bind_ok h
  obtain ⟨-, rfl⟩ := Prod.mk.inj h₂
  rw [hread] at h
  have hcounted : Gained s [.searched path]
      { counts := { searched := 1, bytesRead := bytes.length } } (s₁.searched path bytes) :=
    (inTime_gained h₁).quiet_then
      ⟨rfl, rfl, rfl, by simp [State.searched, Success.searched], rfl, rfl⟩
  have hfound : Gained (s₁.searched path bytes) [] { hits := fileHits job.engine job.matcher path bytes } s' := by
    by_cases hempty : bytes.isEmpty = true
    · simp only [hempty, if_true] at h
      obtain ⟨-, rfl⟩ := Prod.mk.inj h
      simpa [fileHits, hempty] using Gained.refl (s₁.searched path bytes)
    · simp only [hempty] at h
      simpa [fileHits, hempty, hitsOf] using findIter_gained h
  simpa [Tally.add, Counts.add, Tally.ofFile] using hcounted.trans hfound

theorem captureTwice_log {fd : φ} {path : Str} {w w' : World σ φ} {content : Option Bytes}
    (h : captureTwice job fd path w = (.ok content, w')) :
    ∃ log, FileLog fd path content log ∧ w'.log = w.log ++ log := by
  obtain ⟨r, w₁, h₁, h⟩ := bind_ok h
  obtain ⟨hr, rfl⟩ := Prod.mk.inj h₁
  have hfirst : capture job.os job.deadline fd job.request.maxFileBytes w
      = (r, (capture job.os job.deadline fd job.request.maxFileBytes w).2) := by
    rw [← Except.ok.inj hr]
  rcases r with code | first
  · cases code
    case sourceMutated =>
      obtain ⟨log₁, hcap₁, hw₁⟩ := capture_log hfirst fun e he => by cases he; rfl
      obtain ⟨fresh, w₂, h₂, h⟩ := bind_ok h
      obtain ⟨r', w₃, h₃, h₂⟩ := bind_ok h₂
      obtain ⟨hr', hw₃⟩ := Prod.mk.inj h₃
      rcases r' with errno | fresh'
      · cases h₂
      · obtain ⟨hf, rfl⟩ := Prod.mk.inj h₂
        cases hf
        obtain ⟨log₂, hcap₂, hw₂⟩ := capture_log h fun e he => by cases he
        refine ⟨_, .again fresh log₁ log₂ hcap₁ hcap₂, ?_⟩
        have hopened : w₃.log = w.log ++ log₁ ++ [.opened path (.ok fresh)] := by
          rw [← hw₃, ← hw₁, ← Except.ok.inj hr']
          rfl
        simp [hw₂, hopened]
    all_goals cases h
  · obtain ⟨hc, rfl⟩ := Prod.mk.inj h
    cases hc
    obtain ⟨log, hcap, hw⟩ := capture_log hfirst fun e he => by cases he
    exact ⟨log, .once log hcap, hw⟩

/-! ## §6 — the walk. -/

theorem not_complete_of_issue {code : Code} {s : State σ φ} {P : Prop}
    (h : (s.issue code).result.coverage = .complete) : P := by
  cases h

/-- What `search_file` adds: an exclusion, or the tally of the captured bytes. -/
theorem searchFile_log (hread : job.request.read = none) {fd : φ} {path : Str} {s s' : State σ φ}
    (h : searchFile job fd path s = (.ok (), s')) (hc : s'.result.coverage = .complete) :
    (∃ log, FileLog fd path none log ∧ Gained s log .excludedOne s') ∨
      ∃ bytes log, FileLog fd path (some bytes) log ∧
        Gained s (log ++ [.searched path]) (.ofFile job.engine job.matcher path bytes) s' := by
  have hall : ¬job.request.read.any (fun r => r.path ≠ path) = true := by simp [hread]
  rw [searchFile, if_neg hall] at h
  obtain ⟨r, s₁, h₁, h⟩ := bind_ok h
  obtain ⟨hr, rfl⟩ := Prod.mk.inj h₁
  have hcap : captureTwice job fd path s.world = (r, (captureTwice job fd path s.world).2) := by
    rw [← Except.ok.inj hr]
    rfl
  rcases r with code | _ | bytes
  · cases code
    case deadline => cases h
    -- every other failure is an issue
    all_goals
      obtain ⟨-, rfl⟩ := Prod.mk.inj h
      exact not_complete_of_issue hc
  · obtain ⟨-, rfl⟩ := Prod.mk.inj h
    obtain ⟨log, hlog, hw⟩ := captureTwice_log hcap
    refine .inl ⟨log, hlog, ?_⟩
    have hg := (Gained.io hw).quiet_then (Gained.excluded _)
    rwa [List.append_nil] at hg
  · obtain ⟨log, hlog, hw⟩ := captureTwice_log hcap
    exact .inr ⟨bytes, log, hlog, (Gained.io hw).quiet_then (searchBytes_gained hread h)⟩

/-- A walk of the level below that keeps partial results partial and has an account where it ends
complete. -/
structure Accounted (job : Job σ φ) (levels : Nat) (descend : φ → Str → Work σ φ Unit) : Prop where
  keeps : ∀ fd dir, Keeps (fun s : State σ φ => s.result.coverage = .incomplete) (descend fd dir)
  log : ∀ {fd dir s s'}, descend fd dir s = (.ok (), s') → s'.result.coverage = .complete →
    ∃ t log, WalkLog job.engine job.matcher s.scope.toFilter levels fd dir t log ∧ Gained s log t s'

section Descend

variable {descend : φ → Str → Work σ φ Unit} {levels : Nat} (hread : job.request.read = none)
  (hd : Accounted job levels descend)

include hread hd

theorem visitAllowed_log {filter : Filter} {dir path : Str} {n : DirName} {node : φ} {metadata : Stat}
    {rules : Rules} {kind : FileType} {s s' : State σ φ} (hfilter : s.scope.toFilter = filter)
    (hr : Ruled job.engine filter dir n path metadata rules true) (hkind : metadata.fileType = kind)
    (h : visitAllowed job descend path node kind s = (.ok (), s'))
    (hc : s'.result.coverage = .complete) :
    ∃ t log, EntryLog job.engine job.matcher filter levels dir n t (askedLog path node metadata rules ++ log) ∧
      Gained s log t s' := by
  cases kind
  case directory =>
    obtain ⟨r, s₁, h₁, h⟩ := bind_ok h
    obtain ⟨hr₁, rfl⟩ := Prod.mk.inj h₁
    rcases r with code | ⟨⟩
    · -- a failure below is an issue here, or ends this walk too
      cases code
      case readFailed =>
        obtain ⟨-, rfl⟩ := Prod.mk.inj h
        exact not_complete_of_issue hc
      all_goals cases h
    · obtain ⟨-, rfl⟩ := Prod.mk.inj h
      obtain ⟨t, log, hlog, hg⟩ := hd.log (Prod.ext (Except.ok.inj hr₁) rfl) hc
      rw [hfilter] at hlog
      exact ⟨t, log, .walked levels dir n path node metadata rules t log hr hkind hlog, hg⟩
  case regularFile =>
    rcases searchFile_log hread h hc with ⟨log, hlog, hg⟩ | ⟨bytes, log, hlog, hg⟩
    · exact ⟨_, log, .unreadable levels dir n path node metadata rules log hr hkind hlog, hg⟩
    · exact ⟨_, _, .searched levels dir n path node metadata rules bytes log hr hkind hlog, hg⟩
  case other =>
    obtain ⟨-, rfl⟩ := Prod.mk.inj h
    refine ⟨.excludedOne, [], ?_, Gained.excluded s⟩
    rw [List.append_nil]
    exact .special levels dir n path node metadata rules hr hkind

theorem visitNode_log {dir path : Str} {n : DirName} {node : φ} {metadata : Stat} {s s' : State σ φ}
    (hruled : ∀ verdict, s.scope.toFilter.allowsUnder job.engine s.scope.rules path
        (metadata.fileType == .directory) = verdict →
      Ruled job.engine s.scope.toFilter dir n path metadata s.scope.rules verdict)
    (h : visitNode job descend path node metadata s = (.ok (), s'))
    (hc : s'.result.coverage = .complete) :
    ∃ t log, EntryLog job.engine job.matcher s.scope.toFilter levels dir n t
        (askedLog path node metadata s.scope.rules ++ log) ∧
      Gained s (.checked path (metadata.fileType == .directory) s.scope.rules :: log) t s' := by
  obtain ⟨_, _, h₁, h⟩ := bind_ok h
  obtain ⟨hs, rfl⟩ := Prod.mk.inj h₁
  cases hs
  obtain ⟨_, s₁, h₁, h⟩ := bind_ok h
  obtain ⟨-, hs₁⟩ := Prod.mk.inj h₁
  have hnote : Gained s [.checked path (metadata.fileType == .directory) s.scope.rules] {} s₁ :=
    hs₁ ▸ Gained.note _ s
  split at h
  case isFalse hrefused =>
    obtain ⟨-, rfl⟩ := Prod.mk.inj h
    have hr := hruled false (by simpa [Scope.allows] using hrefused)
    refine ⟨.excludedOne, [], ?_, hnote.quiet_then (Gained.excluded _)⟩
    rw [List.append_nil]
    exact .refused levels dir n path node metadata _ hr
  case isTrue hallowed =>
    obtain ⟨t, log, hlog, hg⟩ :=
      visitAllowed_log hread hd hnote.filter (hruled true hallowed) rfl h hc
    exact ⟨t, log, hlog, hnote.quiet_then hg⟩

theorem visitPath_log {dir path : Str} {n : DirName} {s s' : State σ φ}
    (hruled : ∀ metadata verdict, s.scope.toFilter.allowsUnder job.engine s.scope.rules path
        (metadata.fileType == .directory) = verdict →
      Ruled job.engine s.scope.toFilter dir n path metadata s.scope.rules verdict)
    (h : visitPath job descend path s = (.ok (), s')) (hc : s'.result.coverage = .complete) :
    ∃ t log, EntryLog job.engine job.matcher s.scope.toFilter levels dir n t log ∧ Gained s log t s' := by
  obtain ⟨r, s₁, h₁, h⟩ := bind_ok h
  obtain ⟨hr₁, hs₁⟩ := Prod.mk.inj h₁
  rcases r with code | node
  · obtain ⟨-, rfl⟩ := Prod.mk.inj h
    exact not_complete_of_issue hc
  · obtain ⟨r', s₂, h₂, h⟩ := bind_ok h
    obtain ⟨hr₂, hs₂⟩ := Prod.mk.inj h₂
    rcases r' with code | metadata
    · obtain ⟨-, rfl⟩ := Prod.mk.inj h
      exact not_complete_of_issue hc
    · obtain ⟨w₁, hw₁, rfl⟩ := Work.io_ok (Prod.ext (Except.ok.inj hr₁) hs₁)
      obtain ⟨w₂, hw₂, rfl⟩ := Work.io_ok (Prod.ext (Except.ok.inj hr₂) hs₂)
      have hopened : Gained s [.opened path (.ok node)] {} { s with world := w₁ } :=
        Gained.io (anchor_log hw₁)
      have hstat := hopened.quiet_then (Gained.io (s := { s with world := w₁ }) (fstat_log hw₂))
      obtain ⟨t, log, hlog, hg⟩ := visitNode_log (s := { s with world := w₂ }) hread hd (hruled metadata) h hc
      exact ⟨t, _, hlog, hstat.quiet_then hg⟩

theorem visitName_log {dir : Str} {n : DirName} {s s' : State σ φ}
    (h : visitName job descend dir n s = (.ok (), s')) (hc : s'.result.coverage = .complete) :
    ∃ t log, EntryLog job.engine job.matcher s.scope.toFilter levels dir n t log ∧ Gained s log t s' := by
  unfold visitName at h
  cases hname : Utf8.decode n.bytes with
  | none =>
    rw [hname] at h
    obtain ⟨-, rfl⟩ := Prod.mk.inj h
    exact ⟨_, [], .notUtf8 levels dir n hname, Gained.excluded s⟩
  | some name =>
    rw [hname] at h
    obtain ⟨_, _, h₁, h⟩ := bind_ok h
    obtain ⟨hs, rfl⟩ := Prod.mk.inj h₁
    cases hs
    split at h
    case isTrue hbad =>
      obtain ⟨-, rfl⟩ := Prod.mk.inj h
      refine ⟨_, [], .unlisted levels dir n name hname ?_, Gained.excluded s⟩
      simpa using hbad
    case isFalse hgood =>
      have hnotAside : ¬aside job.request (child dir name) = true := by simp [aside, hread]
      rw [if_neg hnotAside] at h
      simp only [Bool.or_eq_true, Bool.not_eq_true', not_or, Bool.not_eq_false,
        Bool.not_eq_true] at hgood
      exact visitPath_log hread hd (fun metadata verdict hv =>
        ⟨⟨name, hname, rfl⟩, hgood.1, hgood.2, hv⟩) h hc

theorem visit_log {dir : Str} {n : DirName} (hdots : isDots n = false) {s s' : State σ φ}
    (h : visit job descend dir n s = (.ok (), s')) (hc : s'.result.coverage = .complete) :
    ∃ t log, EntryLog job.engine job.matcher s.scope.toFilter levels dir n t log ∧
      Gained s log (Tally.visitedOne.add t) s' := by
  rw [visit, if_neg (by simp [hdots])] at h
  obtain ⟨_, _, h₁, h⟩ := bind_ok h
  obtain ⟨hs, rfl⟩ := Prod.mk.inj h₁
  cases hs
  split at h
  · cases h
  · obtain ⟨_, s₁, h₁, h⟩ := bind_ok h
    obtain ⟨-, rfl⟩ := Prod.mk.inj h₁
    obtain ⟨t, log, hlog, hg⟩ := visitName_log hread hd h hc
    exact ⟨t, log, hlog, (Gained.visited s).trans hg⟩

/-- Along the stream: a complete rest was complete before each entry. -/
theorem entries_log {dir : Str} : ∀ {stream : Stream σ} {s s' : State σ φ},
    entries job descend dir stream s = (.ok (), s') → s'.result.coverage = .complete →
      ∃ t log, StreamLog job.engine job.matcher s.scope.toFilter levels dir t log ∧ Gained s log t s'
  | .done, s, s', h, _ => by
      obtain ⟨-, rfl⟩ := Prod.mk.inj h
      exact ⟨_, _, .done levels dir, Gained.note _ s⟩
  | .failed, s, s', h, _ => by
      obtain ⟨_, s₁, -, h⟩ := bind_ok h
      obtain ⟨_, s₂, -, h⟩ := bind_ok h
      cases h
  | .name n rest, s, s', h, hc => by
      obtain ⟨_, s₁, h₁, h⟩ := bind_ok h
      obtain ⟨-, rfl⟩ := Prod.mk.inj h₁
      obtain ⟨_, s₂, h₂, h⟩ := bind_ok h
      obtain ⟨_, s₃, h₃, h⟩ := bind_ok h
      obtain ⟨_, _, h₄, h⟩ := bind_ok h
      obtain ⟨hs, rfl⟩ := Prod.mk.inj h₄
      cases hs
      have hstart := (Gained.note (.entry dir (.name n)) s).then_quiet (inTime_gained h₂)
      obtain ⟨t₂, log₂, hlog₂, hg₂⟩ := entries_log h hc
      have hc₃ := complete_before (stable_incomplete.keeps_entries hd.keeps dir _) h hc
      cases hdots : isDots n
      case true =>
        rw [visit, if_pos hdots] at h₃
        obtain ⟨-, rfl⟩ := Prod.mk.inj h₃
        rw [hstart.filter] at hlog₂
        exact ⟨t₂, _, .dots levels dir n t₂ log₂ hdots hlog₂, hstart.quiet_then hg₂⟩
      case false =>
        obtain ⟨t₁, log₁, hlog₁, hg₁⟩ := visit_log hread hd hdots h₃ hc₃
        have hall := (hstart.quiet_then hg₁).trans hg₂
        rw [hstart.filter] at hlog₁
        rw [hg₁.filter, hstart.filter] at hlog₂
        exact ⟨_, _, .entry levels dir n t₁ t₂ log₁ log₂ hdots hlog₁ hlog₂, by simpa using hall⟩

end Descend

/-- **A walk that ends complete has an account**, at every depth. -/
theorem walk_log (hread : job.request.read = none) : ∀ levels : Nat, Accounted job levels (walk job levels)
  | 0 => {
      keeps := stable_incomplete.keeps_walk 0
      log := by
        intro fd dir s s' h hc
        obtain ⟨_, s₁, -, h⟩ := bind_ok h
        obtain ⟨-, rfl⟩ := Prod.mk.inj h
        exact not_complete_of_issue hc }
  | levels + 1 => {
      keeps := stable_incomplete.keeps_walk (levels + 1)
      log := by
        intro fd dir s s' h hc
        obtain ⟨_, s₁, h₁, h⟩ := bind_ok h
        have ht := inTime_gained h₁
        obtain ⟨_, s₂, h₂, h⟩ := bind_ok h
        obtain ⟨hr₂, hs₂⟩ := Prod.mk.inj h₂
        obtain ⟨observed, log₁, hlog₁, hw, hf, ho⟩ := enter_log (Prod.ext hr₂ rfl)
        have hent : Gained s₁ log₁ { observed } s₂ := by
          subst hs₂
          exact ⟨hw, hf, ho, by simp, rfl, rfl⟩
        obtain ⟨stream, s₃, h₃, h⟩ := bind_ok h
        obtain ⟨w₃, hw₃, rfl⟩ := Work.io_ok h₃
        obtain ⟨readable, hopen⟩ := openDir_log hw₃
        obtain ⟨t, log₂, hlog₂, hg⟩ := entries_log hread (walk_log hread levels) h hc
        have hstart := (ht.quiet_then hent).then_quiet (Gained.io hopen)
        rw [hstart.filter] at hlog₂
        rw [show s₁.scope.toFilter = s.scope.toFilter from ht.filter] at hlog₁
        have hall := hstart.trans hg
        refine ⟨_, _, .mk levels fd readable dir observed t log₁ log₂ hlog₁ hlog₂, ?_⟩
        simpa using hall }

end Job

/-! ## §7 — what an account says of single calls. -/

/-- The call the event records succeeded. -/
def Event.Succeeded : Event φ → Prop
  | .opened _ (.error _) | .policyOpened _ (.error _) | .reopened _ _ none | .stat _ none
  | .read _ _ none | .listed _ false | .entry _ .failed | .captured _ (.error _) => False
  | _ => True

/-- Every call succeeded, save for absent ignore files and files that changed under their first
capture; after these the path was opened again and the second capture went well. -/
inductive Settled : List (Event φ) → Prop where
  | nil : Settled []
  | call (e : Event φ) (rest : List (Event φ)) (h : e.Succeeded) (settled : Settled rest) :
      Settled (e :: rest)
  | absent (path : Str) (rest : List (Event φ)) (settled : Settled rest) :
      Settled (.policyOpened path (.error .noent) :: rest)
  | again (fd fresh : φ) (path : Str) (content : Option Bytes) (calls rest : List (Event φ))
      (h : ∀ e ∈ calls, FileCall e) (settled : Settled rest) :
      Settled (.captured fd (.error .sourceMutated) :: .opened path (.ok fresh) ::
        (calls ++ .captured fresh (.ok content) :: rest))

/-- An entry of a directory other than `.` and `..`. -/
def Event.isEntry : Event φ → Bool
  | .entry _ (.name n) => !isDots n
  | _ => false

namespace Settled

variable {log log₁ log₂ : List (Event φ)}

theorem append (h₁ : Settled log₁) (h₂ : Settled log₂) : Settled (log₁ ++ log₂) := by
  induction h₁ with
  | nil => exact h₂
  | call e rest h _ ih => exact .call e _ h ih
  | absent path rest _ ih => exact .absent path _ ih
  | again fd fresh path content calls rest h _ ih =>
    simpa using Settled.again fd fresh path content calls _ h ih

theorem calls (h : ∀ e ∈ log, e.Succeeded) : Settled log := by
  induction log with
  | nil => exact .nil
  | cons e rest ih =>
    exact .call e rest (h e List.mem_cons_self) (ih fun x hx => h x (List.mem_cons_of_mem e hx))

end Settled

theorem FileCall.succeeded {e : Event φ} (h : FileCall e) : e.Succeeded := by
  rcases e with ⟨_, _⟩ | ⟨_, _⟩ | ⟨_, _, _ | _⟩ | ⟨_, _ | _⟩ | ⟨_, _, _ | _⟩ | _ | _ | _ | _ | _ | _ <;>
    first | exact h.elim | trivial

theorem FileCall.not_entry {e : Event φ} (h : FileCall e) : e.isEntry = false := by
  cases e
  case entry => exact h.elim
  all_goals rfl

/-- What a part of an account comes to: no call left unsettled, every entry counted as visited, none
as failed. -/
structure Sound (t : Tally) (log : List (Event φ)) : Prop where
  settled : Settled log
  visited : t.counts.visited = log.countP Event.isEntry
  failed : t.counts.failed = 0

namespace Sound

variable {t t₁ t₂ : Tally} {log log₁ log₂ : List (Event φ)}

theorem append (h₁ : Sound t₁ log₁) (h₂ : Sound t₂ log₂) : Sound (t₁.add t₂) (log₁ ++ log₂) where
  settled := h₁.settled.append h₂.settled
  visited := by
    show t₁.counts.visited + t₂.counts.visited = _
    rw [List.countP_append, h₁.visited, h₂.visited]
  failed := by
    show t₁.counts.failed + t₂.counts.failed = 0
    rw [h₁.failed, h₂.failed]

/-- A log of successful calls that yielded no entry. -/
theorem calls (hv : t.counts.visited = 0) (hf : t.counts.failed = 0)
    (h : ∀ e ∈ log, e.Succeeded ∧ e.isEntry = false) : Sound t log where
  settled := Settled.calls fun e he => (h e he).1
  visited := by
    rw [hv, eq_comm, List.countP_eq_zero]
    intro e he
    simp [(h e he).2]
  failed := hf

end Sound

theorem CaptureLog.ok {fd : φ} {content : Option Bytes} {log : List (Event φ)}
    (h : CaptureLog fd (.ok content) log) : ∀ e ∈ log, e.Succeeded ∧ e.isEntry = false := by
  obtain ⟨calls, hcalls⟩ := h
  intro e he
  rcases List.mem_append.1 he with he | he
  · exact ⟨(hcalls e he).succeeded, (hcalls e he).not_entry⟩
  · rw [List.mem_singleton.1 he]
    exact ⟨trivial, rfl⟩

theorem PolicyLog.sound {path : Str} {bytes : Option Bytes} {log : List (Event φ)}
    (h : PolicyLog path bytes log) {t : Tally} (hv : t.counts.visited = 0)
    (hf : t.counts.failed = 0) : Sound t log := by
  cases h with
  | absent => exact ⟨.absent path [] .nil, hv, hf⟩
  | present fd bytes log captured =>
    refine Sound.calls hv hf fun e he => ?_
    rcases List.mem_cons.1 he with rfl | he
    · exact ⟨trivial, rfl⟩
    · exact captured.ok e he

theorem EnterLog.sound {filter : Filter} {dir : Str} {observed : List (Str × Option Bytes)}
    {log : List (Event φ)} (h : EnterLog filter dir observed log) : Sound { observed } log := by
  cases h with
  | off => exact ⟨.nil, rfl, rfl⟩
  | on _ gitignore ignore log₁ log₂ first second =>
    have hpolicy : ∀ (path : Str) (bytes : Option Bytes),
        Sound {} [(.policy path bytes : Event φ)] := fun _ _ =>
      ⟨.call _ _ trivial .nil, rfl, rfl⟩
    have h₁ : Sound { observed := [(child dir GITIGNORE, gitignore)] } log₁ := first.sound rfl rfl
    have h₂ : Sound { observed := [(child dir IGNORE, ignore)] } log₂ := second.sound rfl rfl
    exact (h₁.append (hpolicy _ _)).append (h₂.append (hpolicy _ _))

theorem FileLog.sound {fd : φ} {path : Str} {content : Option Bytes} {log : List (Event φ)}
    (h : FileLog fd path content log) {t : Tally} (hv : t.counts.visited = 0)
    (hf : t.counts.failed = 0) : Sound t log := by
  cases h with
  | once log captured => exact Sound.calls hv hf captured.ok
  | again fresh log₁ log₂ mutated captured =>
    obtain ⟨calls₁, h₁⟩ := mutated
    obtain ⟨calls₂, h₂⟩ := captured
    refine ⟨?_, ?_, hf⟩
    · rw [List.append_assoc]
      exact (Settled.calls fun e he => (h₁ e he).succeeded).append
        (.again fd fresh path content calls₂ [] h₂ .nil)
    · have hnone : ∀ calls : List (Event φ), (∀ e ∈ calls, FileCall e) →
          calls.countP Event.isEntry = 0 := fun calls h => by
        rw [List.countP_eq_zero]
        intro e he
        simp [(h e he).not_entry]
      simp [hv, hnone calls₁ h₁, hnone calls₂ h₂, Event.isEntry]

theorem sound_asked {path : Str} {node : φ} {metadata : Stat} {rules : Rules} :
    Sound {} (askedLog path node metadata rules) :=
  ⟨.call _ _ trivial (.call _ _ trivial (.call _ _ trivial .nil)), rfl, rfl⟩

section Account

variable {engine : Engine} {matcher : Bytes → List (Nat × Nat)} {filter : Filter}

mutual

theorem WalkLog.sound {levels : Nat} {fd : φ} {dir : Str} {t : Tally} {log : List (Event φ)} :
    WalkLog engine matcher filter levels fd dir t log → Sound t log
  | .mk levels fd readable dir observed t log₁ log₂ entered stream => by
      have hopen : Sound {} [(.reopened fd true (some readable) : Event φ), .listed readable true] :=
        ⟨.call _ _ trivial (.call _ _ trivial .nil), rfl, rfl⟩
      simpa [Tally.add, Counts.add] using (entered.sound.append hopen).append stream.sound

theorem StreamLog.sound {levels : Nat} {dir : Str} {t : Tally} {log : List (Event φ)} :
    StreamLog engine matcher filter levels dir t log → Sound t log
  | .done levels dir => ⟨.call _ _ trivial .nil, rfl, rfl⟩
  | .dots levels dir n t log h rest => by
      have hrest := rest.sound
      exact ⟨.call _ _ trivial hrest.settled, by simp [Event.isEntry, h, hrest.visited], hrest.failed⟩
  | .entry levels dir n t₁ t₂ log₁ log₂ h first rest => by
      have hname : Sound .visitedOne [(.entry dir (.name n) : Event φ)] :=
        ⟨.call _ _ trivial .nil, by simp [Event.isEntry, h, Tally.visitedOne], rfl⟩
      exact (hname.append first.sound).append rest.sound

theorem EntryLog.sound {levels : Nat} {dir : Str} {n : DirName} {t : Tally} {log : List (Event φ)} :
    EntryLog engine matcher filter levels dir n t log → Sound t log
  | .notUtf8 .. => ⟨.nil, rfl, rfl⟩
  | .unlisted .. => ⟨.nil, rfl, rfl⟩
  | .refused .. | .special .. => ⟨sound_asked.settled, rfl, rfl⟩
  | .unreadable levels dir n path node metadata rules log h kind file => by
      have hfile : Sound .excludedOne log := file.sound rfl rfl
      simpa [Tally.add, Counts.add] using sound_asked.append hfile
  | .searched levels dir n path node metadata rules bytes log h kind file => by
      have hfile : Sound (.ofFile engine matcher path bytes) log := file.sound rfl rfl
      have hsearched : Sound {} [(.searched path : Event φ)] := ⟨.call _ _ trivial .nil, rfl, rfl⟩
      simpa [Tally.add, Counts.add] using sound_asked.append (hfile.append hsearched)
  | .walked levels dir n path node metadata rules t log h kind walk => by
      simpa [Tally.add, Counts.add] using sound_asked.append walk.sound

end

end Account

theorem VerifyLog.settled {observations : List (Str × Option Bytes)} {log : List (Event φ)}
    (h : VerifyLog observations log) : Settled log := by
  induction h with
  | nil => exact .nil
  | cons path bytes rest log₁ log₂ same _ ih =>
    have hsame : Sound {} log₁ := same.sound rfl rfl
    exact hsame.settled.append ih

/-! ## §8 — `search`. -/

section Search

variable {job : Job σ φ}

theorem traverse_log (hread : job.request.read = none) (hscan : job.request.validateScopeOnly = false)
    {s s' : State σ φ} (h : traverse job s = (.ok (), s')) (hc : s'.result.coverage = .complete) :
    ∃ t log, WalkLog job.engine job.matcher s.scope.toFilter (job.request.maxDepth + 1) job.root [] t
      log ∧ Gained s log t s' := by
  obtain ⟨r, s₁, h₁, h⟩ := bind_ok h
  obtain ⟨hr, hs₁⟩ := Prod.mk.inj h₁
  rw [hscan] at hr hs₁
  rcases r with code | ⟨⟩
  · -- an error of the walk ends the search or is an issue
    obtain ⟨_, _, h₂, h⟩ := bind_ok h
    obtain ⟨hs, rfl⟩ := Prod.mk.inj h₂
    cases hs
    split at h
    · cases h
    · obtain ⟨-, rfl⟩ := Prod.mk.inj h
      exact not_complete_of_issue hc
  · obtain ⟨-, rfl⟩ := Prod.mk.inj h
    exact (walk_log hread _).log (Prod.ext (Except.ok.inj hr) hs₁) hc

theorem revalidate_log {s s' : State σ φ} (h : revalidate job s = (.ok (), s'))
    (hc : s'.result.coverage = .complete) : ∃ log, VerifyLog s.scope.observations log ∧
      s'.world.log = s.world.log ++ log ∧ s'.result = s.result ∧ s'.scope = s.scope := by
  obtain ⟨_, _, h₁, h⟩ := bind_ok h
  obtain ⟨hs, rfl⟩ := Prod.mk.inj h₁
  cases hs
  obtain ⟨r, s₁, h₂, h⟩ := bind_ok h
  obtain ⟨hr, rfl⟩ := Prod.mk.inj h₂
  rcases r with code | ⟨⟩
  · obtain ⟨-, rfl⟩ := Prod.mk.inj h
    exact not_complete_of_issue hc
  · obtain ⟨-, rfl⟩ := Prod.mk.inj h
    obtain ⟨log, hlog, hw⟩ := verify_log (Prod.ext (Except.ok.inj hr) rfl)
    exact ⟨log, hlog, hw, rfl, rfl⟩

end Search

theorem liftExcept_ok {τ α : Type} {x : Except Code α} {s s' : τ} {a : α}
    (h : liftExcept x s = (.ok a, s')) : x = .ok a ∧ s' = s := by
  rcases x with e | b
  · cases h
  · obtain ⟨hb, rfl⟩ := Prod.mk.inj h
    exact ⟨by rw [Except.ok.inj hb], rfl⟩

theorem instant_log {os : Os σ φ} {w w' : World σ φ} {now : Nat}
    (h : os.instant w = (.ok now, w')) : w'.log = w.log := by
  obtain ⟨-, rfl⟩ := Prod.mk.inj h
  rfl

/-- What `search` ran, where it returned a success. -/
structure Searched (engine : Engine) (os : Os σ φ) (root : φ) (r : Request) (w w' : World σ φ)
    (success : Success) (matcher : Bytes → List (Nat × Nat)) (scope : Scope) : Prop where
  valid : validate r = .ok ()
  compiled : engine.matcher r.pattern r.kind r.caseSensitive = some matcher
  scopeOf : Scope.new engine r.scope = .ok scope
  ran : ∃ started w₁ s', w₁.log = w.log ∧
    conclude { engine, os, root, request := r, deadline := started + r.deadlineMs * 1000000, matcher }
      started { world := w₁, scope, result := Success.empty r.id, usedBytes := 2048 }
        = (.ok success, s') ∧ s'.world = w'

theorem search_ok {engine : Engine} {os : Os σ φ} {root : φ} {r : Request} {w w' : World σ φ}
    {success : Success} (h : search engine os root r w = (.ok success, w')) :
    ∃ matcher scope, Searched engine os root r w w' success matcher scope := by
  obtain ⟨⟨⟩, w₁, h₁, h⟩ := bind_ok h
  obtain ⟨hvalid, hw₁⟩ := liftExcept_ok h₁
  obtain ⟨started, w₂, h₂, h⟩ := bind_ok h
  rw [hw₁] at h₂
  cases hm : engine.matcher r.pattern r.kind r.caseSensitive with
  | none =>
    rw [hm] at h
    cases h
  | some matcher =>
    rw [hm] at h
    obtain ⟨scope, w₃, h₃, h⟩ := bind_ok h
    obtain ⟨hscope, hw₃⟩ := liftExcept_ok h₃
    obtain ⟨hout, hw⟩ := Prod.mk.inj h
    exact ⟨matcher, scope, hvalid, hm, hscope, started, w₃, _, hw₃ ▸ instant_log h₂,
      Prod.ext hout rfl, hw⟩

/-- A new scope has loaded nothing. -/
theorem new_observations {engine : Engine} {input : ScopeInput} {scope : Scope}
    (h : Scope.new engine input = .ok scope) : scope.observations = [] ∧ scope.rules = fun _ => none := by
  unfold Scope.new at h
  split at h
  · cases h
  · rcases hg : input.includeGroups.mapM (globs engine) with _ | groups
    · rw [hg] at h
      cases h
    · rw [hg] at h
      rcases he : globs engine input.exclude with _ | exclude
      · rw [he] at h
        cases h
      · rw [he] at h
        cases h
        exact ⟨rfl, rfl⟩

/-- `globs` keeps the patterns. -/
theorem globs_ok {engine : Engine} {patterns : List Str} {set : GlobSet}
    (h : globs engine patterns = .ok set) : set = patterns := by
  unfold globs at h
  split at h
  · cases h
  · split at h
    · cases h
    · split at h
      · exact (Except.ok.inj h).symm
      · cases h

theorem mapM_globs_ok {engine : Engine} : ∀ {groups : List (List Str)} {sets : List GlobSet},
    groups.mapM (globs engine) = .ok sets → sets = groups
  | [], _, h => (Except.ok.inj h).symm
  | group :: rest, sets, h => by
      rw [List.mapM_cons] at h
      rcases hg : globs engine group with _ | set
      · rw [hg] at h
        cases h
      · rw [hg] at h
        rcases hr : rest.mapM (globs engine) with _ | sets'
        · rw [hr] at h
          cases h
        · rw [hr] at h
          cases h
          rw [globs_ok hg, mapM_globs_ok hr]

/-- A scope has the globs of its input. -/
theorem new_filter {engine : Engine} {input : ScopeInput} {scope : Scope}
    (h : Scope.new engine input = .ok scope) : scope.toFilter =
      ⟨input.includeGroups, input.exclude, input.hidden, input.respectIgnore⟩ := by
  unfold Scope.new at h
  split at h
  · cases h
  · rcases hg : input.includeGroups.mapM (globs engine) with _ | groups
    · rw [hg] at h
      cases h
    · rw [hg] at h
      rcases he : globs engine input.exclude with _ | exclude
      · rw [he] at h
        cases h
      · rw [he] at h
        cases h
        rw [mapM_globs_ok hg, globs_ok he]

/-- What a complete result accounts for: `walked` and `verified` are the log of the run. -/
structure Accounts (engine : Engine) (root : φ) (r : Request) (success : Success)
    (matcher : Bytes → List (Nat × Nat)) (filter : Filter) (t : Tally)
    (walked verified : List (Event φ)) : Prop where
  compiled : engine.matcher r.pattern r.kind r.caseSensitive = some matcher
  scopeOf : (Scope.new engine r.scope).map Scope.toFilter = .ok filter
  /-- Every entry of every stream was excluded for a stated reason, searched, or walked to its end. -/
  walk : WalkLog engine matcher filter (r.maxDepth + 1) root [] t walked
  /-- The ignore files observed last, absent ones among them, were found again. -/
  verify : VerifyLog (t.observed.foldl (fun o x => observe x.1 x.2 o) []) verified
  hits : success.hits = t.hits
  counts : success.counts = t.counts
  reasons : success.reasons = []
  settled : Settled (walked ++ verified)
  visited : success.counts.visited = walked.countP Event.isEntry
  failed : success.counts.failed = 0

end JevGrep.Worker
