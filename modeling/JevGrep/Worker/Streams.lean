/-
# `JevGrep.Worker.Streams` — directory streams without repetition.

A system may yield a name twice in one stream, as `readdir` does where an entry is replaced underneath.
Where it does not, no directory of a run is read twice, so no entry of the log repeats: what lies below
one entry of a directory does not lie below another. §1 streams and logs; §2 rules; §3 the walk; §4 a
run of `search`.
-/
import JevGrep.Worker.Account
import JevGrep.Worker.Calls

namespace JevGrep.Worker

open JevGrep.Lib
open Exec (Triple bind_ok)

variable {σ φ α β : Type}

/-! ## §1 — streams and logs. -/

/-- The stream yields no name twice, and none of `seen`. -/
def Stream.Fresh : List DirName → Stream σ → Prop
  | seen, .name n rest => n ∉ seen ∧ ∀ s, (rest s).Fresh (n :: seen)
  | _, _ => True

/-- No directory stream of the system yields a name twice. -/
def Os.Distinct (os : Os σ φ) : Prop :=
  ∀ fd s stream, (os.dir fd s).1 = some stream → stream.Fresh []

/-- The entries that the streams of a run yielded. -/
def namesOf (log : List (Event φ)) : List (Str × DirName) := log.filterMap Event.named

/-- No entry of the log repeats. -/
def Distinct (log : List (Event φ)) : Prop := (namesOf log).Nodup

theorem namesOf_append (log log' : List (Event φ)) :
    namesOf (log ++ log') = namesOf log ++ namesOf log' := List.filterMap_append

theorem Distinct.before {log log' : List (Event φ)} (h : Distinct log') (hle : log <+: log') :
    Distinct log := by
  obtain ⟨added, rfl⟩ := hle
  rw [Distinct, namesOf_append] at h
  exact (List.nodup_append.1 h).1

theorem Extended.namesOf {before : List (Event φ)} {w : World σ φ} (h : Extended before w) :
    ∃ added, w.log = before ++ added ∧ Worker.namesOf added = [] := by
  obtain ⟨added, hw, hadded⟩ := h
  refine ⟨added, hw, ?_⟩
  rw [Worker.namesOf, List.filterMap_eq_nil_iff]
  exact hadded

/-! ## §2 — rules. -/

/-- The log continues `before`, by entries of which none repeats and all are in `A`. -/
def Yielded (A : Str → DirName → Prop) (before : List (Event φ)) (s : State σ φ) : Prop :=
  ∃ added, s.world.log = before ++ added ∧ Distinct added ∧ ∀ p ∈ namesOf added, A p.1 p.2

/-- Whether it ends well or fails, `m` adds entries of which none repeats and all are in `A`. -/
def Yields (A : Str → DirName → Prop) (m : Work σ φ α) : Prop :=
  ∀ before, Triple (fun s => s.world.log = before) m (fun _ => Yielded A before)
    fun _ => Yielded A before

/-- No entry. -/
def Nothing : Str → DirName → Prop := fun _ _ => False

section Rules

variable {A B C : Str → DirName → Prop} {before : List (Event φ)} {s : State σ φ}

theorem Yielded.mono (h : Yielded A before s) (hsub : ∀ d n, A d n → B d n) : Yielded B before s := by
  obtain ⟨added, hlog, hdistinct, hall⟩ := h
  exact ⟨added, hlog, hdistinct, fun p hp => hsub _ _ (hall p hp)⟩

theorem Extended.yielded (h : Extended before s.world) : Yielded A before s := by
  obtain ⟨added, hlog, hnone⟩ := h.namesOf
  refine ⟨added, hlog, ?_, fun p hp => ?_⟩
  · rw [Distinct, hnone]
    exact List.nodup_nil
  · rw [hnone] at hp
    exact absurd hp List.not_mem_nil

/-- Two parts of a run that yield nothing in common. -/
theorem Yielded.trans {s₁ : State σ φ} (h : Yielded A before s₁) (h' : Yielded B s₁.world.log s)
    (hdisjoint : ∀ d n, A d n → B d n → False) (hA : ∀ d n, A d n → C d n)
    (hB : ∀ d n, B d n → C d n) : Yielded C before s := by
  obtain ⟨added, hlog, hdistinct, hall⟩ := h
  obtain ⟨added', hlog', hdistinct', hall'⟩ := h'
  refine ⟨added ++ added', by rw [hlog', hlog, List.append_assoc], ?_, fun p hp => ?_⟩
  · rw [Distinct, namesOf_append, List.nodup_append]
    refine ⟨hdistinct, hdistinct', fun p hp q hq heq => ?_⟩
    subst heq
    exact hdisjoint _ _ (hall p hp) (hall' p hq)
  · rw [namesOf_append] at hp
    rcases List.mem_append.1 hp with hp | hp
    · exact hA _ _ (hall p hp)
    · exact hB _ _ (hall' p hp)

namespace Yields

variable {m : Work σ φ α}

theorem mono (h : Yields A m) (hsub : ∀ d n, A d n → B d n) : Yields B m := fun before =>
  Triple.con (fun _ hs => hs) (h before) (fun _ _ hs => hs.mono hsub) fun _ _ hs => hs.mono hsub

/-- What only talks to the system yields nothing. -/
theorem silent (h : ∀ s, Extended s.world.log (m s).2.world) : Yields A m := by
  rintro _ s rfl
  have hs := h s
  rcases hm : m s with ⟨e | a, s'⟩
  · rw [hm] at hs
    exact hs.yielded
  · rw [hm] at hs
    exact hs.yielded

theorem pure (a : α) : Yields A (pure a : Work σ φ α) := silent fun s => Extended.refl s.world

theorem fail (code : Code) : Yields A (.fail code : Work σ φ α) := silent fun s => Extended.refl s.world

theorem modify {f : State σ φ → State σ φ} (h : ∀ s, Extended s.world.log (f s).world) :
    Yields A (.modify f) := silent h

/-- A change of the result alone. -/
theorem change {f : State σ φ → State σ φ} (h : ∀ s, (f s).world = s.world) : Yields A (.modify f) :=
  modify fun s => by
    rw [h s]
    exact Extended.refl s.world

theorem io {codes : List Code} {Q : α → Prop} {m : Io σ φ α} (h : Safe codes Q m) :
    Yields A (Work.io m) := silent fun s => by
  have hs := h s.world.log s.world (Grown.refl _)
  rw [Work.io, Exec.onPart_run]
  rcases hm : m s.world with ⟨e | a, w⟩
  · rw [hm] at hs
    exact hs.1.extended
  · rw [hm] at hs
    exact hs.1.extended

theorem bind {f : α → Work σ φ β} (hm : Yields A m) (hf : ∀ a, Yields B (f a))
    (hdisjoint : ∀ d n, A d n → B d n → False) (hA : ∀ d n, A d n → C d n)
    (hB : ∀ d n, B d n → C d n) : Yields C (m >>= f) := by
  intro before s hs
  have hms := hm before s hs
  rcases h : m s with ⟨e | a, s₁⟩
  · rw [h] at hms
    rw [Exec.bind_of_error h]
    exact hms.mono hA
  · rw [h] at hms
    have hfs := hf a s₁.world.log s₁ rfl
    rw [Exec.bind_of_ok h]
    rcases h' : f a s₁ with ⟨e | b, s₂⟩
    · rw [h'] at hfs
      exact hms.trans hfs hdisjoint hA hB
    · rw [h'] at hfs
      exact hms.trans hfs hdisjoint hA hB

/-- Behind a part that yields nothing. -/
theorem after {f : α → Work σ φ β} (hm : Yields Nothing m) (hf : ∀ a, Yields A (f a)) :
    Yields A (m >>= f) :=
  hm.bind hf (fun _ _ h _ => h) (fun _ _ h => h.elim) fun _ _ h => h

theorem get_bind {f : State σ φ → Work σ φ β} (h : ∀ s, Yields A (f s)) : Yields A (.get >>= f) :=
  fun before s hs => h s before s hs

theorem ite {c : Prop} [Decidable c] {m' : Work σ φ α} (ht : c → Yields A m) (hf : ¬c → Yields A m') :
    Yields A (if c then m else m') := fun before =>
  Triple.ite (fun hc => ht hc before) fun hc => hf hc before

theorem attempt {ε : Type} {m : Exec (State σ φ) ε α} (h : ∀ before,
    Triple (fun s => s.world.log = before) m (fun _ => Yielded A before) fun _ => Yielded A before) :
    Yields A (.attempt m : Work σ φ (Except ε α)) := by
  intro before s hs
  have hms := h before s hs
  rw [Exec.attempt_run]
  rcases hm : m s with ⟨e | a, s₁⟩
  · rw [hm] at hms
    exact hms
  · rw [hm] at hms
    exact hms

/-- What is attempted yields what it yields, and nothing comes behind it. -/
theorem attempt_bind {f : Except Code α → Work σ φ β} (hm : Yields A m)
    (hf : ∀ r, Yields Nothing (f r)) : Yields A (.attempt m >>= f) :=
  (Yields.attempt hm).bind hf (fun _ _ _ h => h) (fun _ _ h => h) fun _ _ h => h.elim

/-- Behind an attempt that yields nothing. -/
theorem attempt_after {f : Except Code α → Work σ φ β} (hm : Yields Nothing m)
    (hf : ∀ r, Yields A (f r)) : Yields A (.attempt m >>= f) :=
  (Yields.attempt hm).after hf

end Yields

end Rules

/-! ## §3 — the walk. -/

section Walk

variable {job : Job σ φ} {A : Str → DirName → Prop}

theorem yields_inTime : Yields A (inTime job) :=
  Yields.io (safe_expired (List.mem_singleton_self _) : Safe [Code.deadline] _ _)

theorem yields_findIter (path digest : Str) (bytes : Bytes) : ∀ found : List (Nat × Nat),
    Yields A (findIter job path digest bytes found)
  | [] => Yields.pure _
  | (start, stop) :: rest => by
      have htail := yields_findIter path digest bytes rest
      refine yields_inTime.after fun _ => Yields.ite (fun _ => htail) fun _ => ?_
      refine Yields.after ?_ fun _ => htail
      refine Yields.get_bind fun s => Yields.ite (fun _ => Yields.fail _) fun _ =>
        Yields.ite (fun _ => Yields.fail _) fun _ => ?_
      exact Yields.get_bind fun s => Yields.ite (fun _ => Yields.fail _) fun _ =>
        Yields.change fun _ => rfl

theorem yields_searchBytes (path : Str) (bytes : Bytes) : Yields A (searchBytes job path bytes) := by
  refine yields_inTime.after fun _ => Yields.after (Yields.modify fun s => ?_) fun _ => ?_
  · exact Extended.note rfl s.world
  · cases job.request.read with
    | some read =>
      exact Yields.get_bind fun s => Yields.ite (fun _ => Yields.fail _) fun _ =>
        Yields.ite (fun _ => Yields.fail _) fun _ => Yields.ite (fun _ => Yields.fail _) fun _ =>
          Yields.change fun _ => rfl
    | none => exact Yields.ite (fun _ => Yields.pure _) fun _ => yields_findIter path _ bytes _

theorem yields_searchFile (fd : φ) (path : Str) : Yields A (searchFile job fd path) := by
  refine Yields.ite (fun _ => Yields.pure _) fun _ => ?_
  refine Yields.attempt_after (Yields.io (safe_captureTwice job fd path)) fun r => ?_
  rcases r with code | _ | bytes
  · cases code
    case deadline => exact Yields.fail _
    all_goals exact Yields.change fun _ => rfl
  · exact Yields.change fun _ => rfl
  · exact yields_searchBytes path bytes

theorem yields_enter (dir : Str) :
    Yields A (Work.entering (enter job.engine job.os job.deadline dir)) := Yields.silent fun s => by
  have henter : EnterSafe (enter job.engine job.os job.deadline dir : Enter σ φ Unit) := safe_enter dir
  have hs := henter s.world.log s.scope.toFilter ⟨s.world, s.scope⟩ ⟨Extended.refl _, rfl⟩
  rw [Work.entering, Exec.onPart_run]
  rcases hm : enter job.engine job.os job.deadline dir ⟨s.world, s.scope⟩ with ⟨e | a, w⟩
  · rw [hm] at hs
    exact hs.1.1
  · rw [hm] at hs
    exact hs.1

/-- An entry that lies below the entry `n` of `dir`. -/
def Below (dir : Str) (n : DirName) (d : Str) : Prop :=
  ∃ name, Utf8.decode n.bytes = some name ∧ validPath (child dir name) = true ∧ child dir name ∈ above d

theorem child_ne_nil {dir name : Str} (h : validPath (child dir name) = true) : child dir name ≠ [] := by
  intro hnil
  rw [hnil] at h
  exact absurd h (by decide)

theorem Below.mem_above {dir d : Str} {n : DirName} (h : Below dir n d) : dir ∈ above d := by
  obtain ⟨name, hname, hvalid, hmem⟩ := h
  refine mem_above_trans ?_ hmem
  rw [above_of_ne (child_ne_nil hvalid), containing_child (slash_notMem_name hname)]
  exact List.mem_cons_of_mem _ (mem_above_self dir)

/-- An entry is longer than its directory. -/
theorem child_notMem_above {dir name : Str} (hname : '/' ∉ name) (hvalid : validPath (child dir name) = true) :
    child dir name ∉ above dir := by
  intro hmem
  have hle := length_le_of_mem_above hmem
  have hlt := length_parentOf (child_ne_nil hvalid)
  rw [parentOf_child hname] at hlt
  omega

theorem not_below_self {dir : Str} {n : DirName} : ¬Below dir n dir := by
  rintro ⟨name, hname, hvalid, hmem⟩
  exact child_notMem_above (slash_notMem_name hname) hvalid hmem

theorem DirName.eq_of_decode {n n' : DirName} {name : Str} (h : Utf8.decode n.bytes = some name)
    (h' : Utf8.decode n'.bytes = some name) : n = n' := by
  rcases n with ⟨bytes, _⟩
  rcases n' with ⟨bytes', _⟩
  have hbytes : bytes = bytes' := (Utf8.decode_eq_some.1 h).trans (Utf8.decode_eq_some.1 h').symm
  subst hbytes
  rfl

/-- What lies below one entry of a directory does not lie below another. -/
theorem Below.unique {dir d : Str} {n n' : DirName} (h : Below dir n d) (h' : Below dir n' d) : n = n' := by
  obtain ⟨name, hname, hvalid, hmem⟩ := h
  obtain ⟨name', hname', hvalid', hmem'⟩ := h'
  have hslash := slash_notMem_name hname
  have hslash' := slash_notMem_name hname'
  have heq : child dir name = child dir name' := by
    rcases mem_above_or hmem hmem' with hin | hin
    · rw [above_of_ne (child_ne_nil hvalid'), containing_child hslash'] at hin
      rcases List.mem_cons.1 hin with heq | hin
      · exact heq
      · exact absurd hin (child_notMem_above hslash hvalid)
    · rw [above_of_ne (child_ne_nil hvalid), containing_child hslash] at hin
      rcases List.mem_cons.1 hin with heq | hin
      · exact heq.symm
      · exact absurd hin (child_notMem_above hslash' hvalid')
  have hnames : name = name' := child_injective heq
  subst hnames
  exact DirName.eq_of_decode hname hname'

/-- The directories that a walk from `dir` reads. -/
def From (dir : Str) : Str → DirName → Prop := fun d _ => dir ∈ above d

section Descend

variable {descend : φ → Str → Work σ φ Unit} (hd : ∀ fd dir, Yields (From dir) (descend fd dir))

include hd

theorem yields_visitPath (path : Str) : Yields (From path) (visitPath job descend path) := by
  have hnode : ∀ node metadata, Yields (From path) (visitNode job descend path node metadata) := by
    intro node metadata
    refine Yields.get_bind fun s => Yields.after (Yields.modify fun s' => Extended.note rfl s'.world)
      fun _ => Yields.ite (fun _ => ?_) fun _ => Yields.change fun _ => rfl
    cases metadata.fileType
    case directory =>
      refine Yields.attempt_bind (hd node path) fun r => ?_
      rcases r with code | ⟨⟩
      · cases code
        case readFailed => exact Yields.change fun _ => rfl
        all_goals exact Yields.fail _
      · exact Yields.pure _
    case regularFile => exact yields_searchFile node path
    case other => exact Yields.change fun _ => rfl
  refine Yields.attempt_after (Yields.io (safe_anchor (List.mem_singleton_self _) path)) fun r => ?_
  rcases r with code | node
  · exact Yields.change fun _ => rfl
  · refine Yields.attempt_after (Yields.io (safe_fstat (List.mem_singleton_self _) node)) fun r => ?_
    rcases r with code | metadata
    · exact Yields.change fun _ => rfl
    · exact hnode node metadata

theorem yields_visit (dir : Str) (n : DirName) :
    Yields (fun d _ => Below dir n d) (visit job descend dir n) := by
  refine Yields.ite (fun _ => Yields.pure _) fun _ => Yields.get_bind fun s =>
    Yields.ite (fun _ => Yields.fail _) fun _ => Yields.after (Yields.change fun _ => rfl) fun _ => ?_
  unfold visitName
  cases hname : Utf8.decode n.bytes with
  | none => exact Yields.change fun _ => rfl
  | some name =>
    refine Yields.get_bind fun s => Yields.ite (fun _ => Yields.change fun _ => rfl) fun hshown =>
      Yields.ite (fun _ => Yields.pure _) fun _ => (yields_visitPath hd _).mono fun d _ hfrom => ?_
    simp only [Bool.or_eq_true, Bool.not_eq_true', not_or, Bool.not_eq_false] at hshown
    exact ⟨name, hname, hshown.1, hfrom⟩

/-- What is left of a stream yields no entry of `seen`, and nothing below one. -/
theorem yields_entries (dir : Str) : ∀ (seen : List DirName) (stream : Stream σ), stream.Fresh seen →
    Yields (fun d m => (d = dir ∧ m ∉ seen) ∨ ∃ n, n ∉ seen ∧ Below dir n d)
      (entries job descend dir stream)
  | _, .done, _ => Yields.modify fun s => Extended.note rfl s.world
  | _, .failed, _ => by
      refine Yields.after (Yields.modify fun s => Extended.note rfl s.world) fun _ => ?_
      exact yields_inTime.after fun _ => Yields.fail _
  | seen, .name n rest, ⟨hnew, hrest⟩ => by
      have hnote : Yields (fun d m => d = dir ∧ m = n)
          (.modify fun s : State σ φ => s.note (.entry dir (.name n))) := by
        rintro _ s rfl
        refine ⟨[.entry dir (.name n)], rfl, List.nodup_cons.2 ⟨List.not_mem_nil, List.nodup_nil⟩, fun p hp => ?_⟩
        rw [List.mem_singleton.1 hp]
        exact ⟨rfl, rfl⟩
      have htail : ∀ s : State σ φ, Yields _ (entries job descend dir (rest s.world.os)) := fun s =>
        yields_entries dir (n :: seen) (rest s.world.os) (hrest _)
      -- the entry itself, what lies below it, and the rest of the stream have nothing in common
      have hbelow : Yields (fun d m => Below dir n d ∨ (d = dir ∧ m ∉ n :: seen) ∨
          ∃ n', n' ∉ n :: seen ∧ Below dir n' d)
          (visit job descend dir n >>= fun _ => .get >>= fun s : State σ φ =>
            entries job descend dir (rest s.world.os)) := by
        refine (yields_visit hd dir n).bind (fun _ => Yields.get_bind htail) ?_ (fun _ _ h => .inl h)
          fun _ _ h => .inr h
        rintro d m hb (⟨rfl, -⟩ | ⟨n', hn', hb'⟩)
        · exact not_below_self hb
        · exact hn' (hb.unique hb' ▸ List.mem_cons_self)
      refine hnote.bind (fun _ => yields_inTime.after fun _ => hbelow) ?_ ?_ ?_
      · rintro d m ⟨rfl, rfl⟩ (hb | ⟨-, hm⟩ | ⟨n', -, hb⟩)
        · exact not_below_self hb
        · exact hm List.mem_cons_self
        · exact not_below_self hb
      · rintro d m ⟨rfl, rfl⟩
        exact .inl ⟨rfl, hnew⟩
      · rintro d m (hb | ⟨hdir, hm⟩ | ⟨n', hn', hb⟩)
        · exact .inr ⟨n, hnew, hb⟩
        · exact .inl ⟨hdir, fun h => hm (List.mem_cons_of_mem _ h)⟩
        · exact .inr ⟨n', fun h => hn' (List.mem_cons_of_mem _ h), hb⟩

end Descend

theorem openDir_fresh (hos : job.os.Distinct) {fd : φ} {w w' : World σ φ} {stream : Stream σ}
    (h : openDir job fd w = (.ok stream, w')) : stream.Fresh [] := by
  obtain ⟨readable, w₁, -, h⟩ := bind_ok h
  obtain ⟨r, w₂, h₂, h⟩ := bind_ok h
  obtain ⟨hr, -⟩ := Prod.mk.inj h₂
  rcases r with _ | stream'
  · cases h
  · obtain ⟨hs, -⟩ := Prod.mk.inj h
    cases hs
    exact hos _ _ _ (Except.ok.inj hr)

/-- **A walk reads no directory twice** where no stream yields a name twice. -/
theorem yields_walk (hos : job.os.Distinct) : ∀ (levels : Nat) (fd : φ) (dir : Str),
    Yields (From dir) (walk job levels fd dir)
  | 0, _, _ => yields_inTime.after fun _ => Yields.change fun _ => rfl
  | levels + 1, fd, dir => by
      refine yields_inTime.after fun _ => (yields_enter dir).after fun _ => ?_
      rintro _ s rfl
      have hopen : Yields Nothing (Work.io (openDir job fd)) := Yields.io (safe_openDir job fd)
      have hs := hopen s.world.log s rfl
      rcases hrun : (Work.io (openDir job fd)) s with ⟨e | stream, s₁⟩
      · rw [hrun] at hs
        rw [Exec.bind_of_error hrun]
        exact hs.mono fun _ _ h => h.elim
      · rw [hrun] at hs
        rw [Exec.bind_of_ok hrun]
        obtain ⟨w, hw, rfl⟩ := Work.io_ok hrun
        have hfresh : stream.Fresh [] := openDir_fresh hos hw
        have hentries : Yields _ (entries job (walk job levels) dir stream) :=
          yields_entries (yields_walk hos levels) dir [] stream hfresh
        have hrest := (hentries.mono (B := From dir) ?_) _ { s with world := w } rfl
        · rcases hend : entries job (walk job levels) dir stream { s with world := w } with ⟨e | a, s₂⟩
          · rw [hend] at hrest
            exact hs.trans hrest (fun _ _ h _ => h) (fun _ _ h => h.elim) fun _ _ h => h
          · rw [hend] at hrest
            exact hs.trans hrest (fun _ _ h _ => h) (fun _ _ h => h.elim) fun _ _ h => h
        · rintro d m (⟨rfl, -⟩ | ⟨n, -, hb⟩)
          · exact mem_above_self _
          · exact hb.mem_above

/-! ## §4 — a run of `search`. -/

theorem yields_conclude (hos : job.os.Distinct) (started : Nat) :
    Yields (fun _ _ => True) (conclude job started) := by
  have htraverse : Yields (fun _ _ => True) (traverse job) := by
    refine Yields.attempt_bind (Yields.ite (fun _ => Yields.pure _) fun _ =>
      (yields_walk hos _ job.root []).mono fun _ _ _ => trivial) fun r => ?_
    rcases r with code | ⟨⟩
    · exact Yields.get_bind fun s => Yields.ite (fun _ => Yields.fail _) fun _ =>
        Yields.change fun s => by
          split <;> rfl
    · exact Yields.pure _
  have hrevalidate : Yields Nothing (revalidate job) := by
    refine Yields.get_bind fun s => Yields.attempt_after (Yields.io (safe_verify _)) fun r => ?_
    rcases r with code | ⟨⟩
    · exact Yields.change fun _ => rfl
    · exact Yields.pure _
  have hrest : Yields Nothing (do
      revalidate job
      let s ← .get
      if job.request.read.isSome && !s.result.reasons.isEmpty then
        .fail (s.result.reasons.headD .invalidRequest)
      else if job.request.read.isSome && s.result.hits.isEmpty then .fail .outOfScope
      else
        let ended ← .io job.os.instant
        pure { s.result with
          policySnapshotHash := snapshotHash job.engine s.scope.observations
          elapsedMs := job.engine.elapsedMs (ended - started) }) := by
    refine hrevalidate.after fun _ => Yields.get_bind fun s => Yields.ite (fun _ => Yields.fail _)
      fun _ => Yields.ite (fun _ => Yields.fail _) fun _ => Yields.after ?_ fun _ => Yields.pure _
    exact Yields.silent fun s => Extended.refl s.world
  exact htraverse.bind (fun _ => hrest) (fun _ _ _ h => h) (fun _ _ h => h) fun _ _ h => h.elim

end Walk

/-- A run of `search` ends before the walk, or with what `conclude` ends in. -/
theorem search_cases {engine : Engine} {os : Os σ φ} {root : φ} {r : Request} {w w' : World σ φ}
    {out : Except Code Success} (h : search engine os root r w = (out, w')) :
    ((∃ code, out = .error code) ∧ w'.log = w.log) ∨ ∃ matcher scope started w₁ s',
      Scope.new engine r.scope = .ok scope ∧ w₁.log = w.log ∧
      conclude { engine, os, root, request := r, deadline := started + r.deadlineMs * 1000000, matcher }
        started { world := w₁, scope, result := Success.empty r.id, usedBytes := 2048 } = (out, s') ∧
      s'.world = w' := by
  rcases hv : validate r with code | ⟨⟩
  · have hrun : search engine os root r w = (.error code, w) := by
      unfold search
      rw [hv]
      rfl
    rw [hrun] at h
    obtain ⟨rfl, rfl⟩ := Prod.mk.inj h
    exact .inl ⟨⟨code, rfl⟩, rfl⟩
  · unfold search at h
    rw [hv] at h
    cases hm : engine.matcher r.pattern r.kind r.caseSensitive with
    | none =>
      rw [hm] at h
      obtain ⟨rfl, rfl⟩ := Prod.mk.inj h
      exact .inl ⟨⟨_, rfl⟩, rfl⟩
    | some matcher =>
      rw [hm] at h
      rcases hs : Scope.new engine r.scope with code | scope
      · rw [hs] at h
        obtain ⟨rfl, rfl⟩ := Prod.mk.inj h
        exact .inl ⟨⟨code, rfl⟩, rfl⟩
      · rw [hs] at h
        obtain ⟨rfl, rfl⟩ := Prod.mk.inj h
        exact .inr ⟨matcher, scope, (os.now w.os).1, { w with os := (os.now w.os).2 }, _, rfl, rfl, rfl, rfl⟩

/-- **No entry of a run repeats** where no directory stream yields a name twice. -/
theorem search_distinct {engine : Engine} {os : Os σ φ} {root : φ} {r : Request} {state : σ}
    {w' : World σ φ} {out : Except Code Success} (hos : os.Distinct)
    (h : search engine os root r ⟨state, []⟩ = (out, w')) : Distinct w'.log := by
  rcases search_cases h with ⟨-, hlog⟩ | ⟨matcher, scope, started, w₁, s', -, hw₁, hrun, rfl⟩
  · rw [hlog]
    exact List.nodup_nil
  · generalize started + r.deadlineMs * 1000000 = deadline at hrun
    obtain ⟨job, hjob⟩ : ∃ job : Job σ φ, job = { engine, os, root, request := r, deadline, matcher } :=
      ⟨_, rfl⟩
    have hyields : Yielded (fun _ _ => True) w₁.log s' := by
      have hstart := yields_conclude (hjob ▸ hos : job.os.Distinct) started w₁.log
        { world := w₁, scope, result := Success.empty r.id, usedBytes := 2048 } rfl
      rw [hjob, hrun] at hstart
      rcases out with _ | _ <;> exact hstart
    obtain ⟨added, hlog, hdistinct, -⟩ := hyields
    rw [hlog, hw₁, List.nil_append]
    exact hdistinct

end JevGrep.Worker
