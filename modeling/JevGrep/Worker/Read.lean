/-
# `JevGrep.Worker.Read` — reads are all or nothing.

A read shares the walk with a search, where failures are recorded and skipped. It turns every recorded
issue back into an error, so a read that succeeds met none: every call went well, every captured content
of its file gave the one hit asked for, and the ignore files were found again. §1 parts of a run without
a fault; §2 the walk; §3 a success.
-/
import Mathlib.Data.List.Forall2
import JevGrep.Worker.Excerpt
import JevGrep.Worker.Passed

namespace JevGrep.Worker

open JevGrep.Lib
open Exec (Keeps Triple bind_ok)

variable {σ φ : Type}

/-! ## §1 — parts of a run without a fault. -/

/-- The contents that were searched at `path`, each captured right before. -/
inductive Took (path : Str) : List (Event φ) → List Bytes → Prop where
  | nil : Took path [] []
  | other (e : Event φ) (rest : List (Event φ)) (contents : List Bytes) (h : ∀ p, e ≠ .searched p)
      (took : Took path rest contents) : Took path (e :: rest) contents
  | content (fd : φ) (bytes : Bytes) (rest : List (Event φ)) (contents : List Bytes)
      (took : Took path rest contents) :
      Took path (.captured fd (.ok (some bytes)) :: .searched path :: rest) (bytes :: contents)

namespace Took

variable {path : Str} {log log' : List (Event φ)} {contents contents' : List Bytes}

theorem append (h : Took path log contents) (h' : Took path log' contents') :
    Took path (log ++ log') (contents ++ contents') := by
  induction h with
  | nil => exact h'
  | other e rest contents he _ ih => exact .other e _ _ he ih
  | content fd bytes rest contents _ ih => exact .content fd bytes _ _ ih

/-- A log in which no content is searched. -/
theorem none (h : ∀ e ∈ log, ∀ p, e ≠ .searched p) : Took path log [] := by
  induction log with
  | nil => exact .nil
  | cons e rest ih =>
    exact .other e rest [] (h e List.mem_cons_self) (ih fun x hx => h x (List.mem_cons_of_mem e hx))

theorem one {e : Event φ} (h : ∀ p, e ≠ .searched p) : Took path [e] [] := .other e [] [] h .nil

end Took

theorem FileCall.not_searched {e : Event φ} (h : FileCall e) (p : Str) : e ≠ .searched p := by
  rintro rfl
  exact h.elim

theorem CaptureLog.not_searched {fd : φ} {outcome : Except Code (Option Bytes)} {log : List (Event φ)}
    (h : CaptureLog fd outcome log) : ∀ e ∈ log, ∀ p, e ≠ .searched p := by
  obtain ⟨calls, hcalls⟩ := h
  intro e he p
  rcases List.mem_append.1 he with he | he
  · exact (hcalls e he).not_searched p
  · rw [List.mem_singleton.1 he]
    exact fun h => by cases h

theorem PolicyLog.not_searched {path : Str} {bytes : Option Bytes} {log : List (Event φ)}
    (h : PolicyLog path bytes log) : ∀ e ∈ log, ∀ p, e ≠ .searched p := by
  cases h with
  | absent =>
    intro e he p
    rw [List.mem_singleton.1 he]
    exact fun h => by cases h
  | present fd bytes log captured =>
    intro e he p
    rcases List.mem_cons.1 he with rfl | he
    · exact fun h => by cases h
    · exact captured.not_searched e he p

theorem EnterLog.took {filter : Filter} {dir path : Str} {observed : List (Str × Option Bytes)}
    {log : List (Event φ)} (h : EnterLog filter dir observed log) : Took path log [] := by
  cases h with
  | off => exact .nil
  | on _ gitignore ignore log₁ log₂ first second =>
    have hpolicy : ∀ (p : Str) (bytes : Option Bytes), Took path [(.policy p bytes : Event φ)] [] :=
      fun _ _ => Took.one fun _ h => by cases h
    have h₁ : Took path log₁ [] := Took.none first.not_searched
    have h₂ : Took path log₂ [] := Took.none second.not_searched
    exact (h₁.append (hpolicy _ _)).append (h₂.append (hpolicy _ _))

theorem FileLog.not_searched {fd : φ} {path : Str} {content : Option Bytes} {log : List (Event φ)}
    (h : FileLog fd path content log) : ∀ e ∈ log, ∀ p, e ≠ .searched p := by
  cases h with
  | once log captured => exact captured.not_searched
  | again fresh log₁ log₂ mutated captured =>
    intro e he p
    rcases List.mem_append.1 he with he | he
    · exact mutated.not_searched e he p
    · rcases List.mem_cons.1 he with rfl | he
      · exact fun h => by cases h
      · exact captured.not_searched e he p

/-- The content that a capture ends in is the one searched. -/
theorem CaptureLog.took {fd : φ} {path : Str} {bytes : Bytes} {log : List (Event φ)}
    (h : CaptureLog fd (.ok (some bytes)) log) : Took path (log ++ [.searched path]) [bytes] := by
  obtain ⟨calls, hcalls⟩ := h
  have hhead : Took path calls [] := Took.none fun e he => (hcalls e he).not_searched
  rw [List.append_assoc]
  exact hhead.append (.content fd bytes [] [] .nil)

theorem FileLog.took {fd : φ} {path : Str} {bytes : Bytes} {log : List (Event φ)}
    (h : FileLog fd path (some bytes) log) : Took path (log ++ [.searched path]) [bytes] := by
  cases h with
  | once log captured => exact captured.took
  | again fresh log₁ log₂ mutated captured =>
    have h₁ : Took path log₁ [] := Took.none mutated.not_searched
    have h₂ : Took path [(.opened path (.ok fresh) : Event φ)] [] := Took.one fun _ h => by cases h
    have hcaptured : Took path (log₂ ++ [.searched path]) [bytes] := captured.took
    have h₃ := h₁.append (h₂.append hcaptured)
    rw [List.append_assoc]
    exact h₃

/-- What a content has to be for a read to give its hit. -/
structure Suits (engine : Engine) (read : ReadRequest) (bytes : Bytes) : Prop where
  text : isText bytes = true
  expected : ∀ digest, read.expectedFileSha256 = some digest → digest = hex (engine.sha256 bytes)
  inside : read.range.stop ≤ bytes.length
  first : isCharBoundary bytes read.range.start = true
  last : isCharBoundary bytes read.range.stop = true

/-- The hit that a read gives for a content. -/
def readHitOf (engine : Engine) (read : ReadRequest) (bytes : Bytes) : Hit :=
  readHit read.path (hex (engine.sha256 bytes)) bytes read.range

/-- Every call of this part of a run went well, and every content it searched gave its hit. -/
structure Faultless (engine : Engine) (read : ReadRequest) (s s' : State σ φ) (log : List (Event φ))
    (contents : List Bytes) : Prop where
  logged : s'.world.log = s.world.log ++ log
  settled : Settled log
  took : Took read.path log contents
  hits : s'.result.hits = s.result.hits ++ contents.map (readHitOf engine read)
  suits : ∀ bytes ∈ contents, Suits engine read bytes

namespace Faultless

variable {engine : Engine} {read : ReadRequest} {s s₁ s' : State σ φ} {log log' : List (Event φ)}
  {contents contents' : List Bytes}

theorem trans (h₁ : Faultless engine read s s₁ log contents)
    (h₂ : Faultless engine read s₁ s' log' contents') :
    Faultless engine read s s' (log ++ log') (contents ++ contents') where
  logged := by rw [h₂.logged, h₁.logged, List.append_assoc]
  settled := h₁.settled.append h₂.settled
  took := h₁.took.append h₂.took
  hits := by rw [h₂.hits, h₁.hits, List.map_append, List.append_assoc]
  suits bytes hb := by
    rcases List.mem_append.1 hb with hb | hb
    · exact h₁.suits bytes hb
    · exact h₂.suits bytes hb

/-- A part that searched nothing. -/
theorem quiet (hlog : s'.world.log = s.world.log ++ log) (hsettled : Settled log)
    (htook : Took read.path log []) (hhits : s'.result.hits = s.result.hits) :
    Faultless engine read s s' log [] where
  logged := hlog
  settled := hsettled
  took := htook
  hits := by rw [hhits, List.map_nil, List.append_nil]
  suits _ hb := absurd hb (by simp)

/-- A part that called nothing. -/
theorem still (hlog : s'.world.log = s.world.log) (hhits : s'.result.hits = s.result.hits) :
    Faultless engine read s s' [] [] :=
  quiet (by rw [hlog, List.append_nil]) .nil .nil hhits

theorem one (e : Event φ) (he : e.Succeeded) (hnot : ∀ p, e ≠ .searched p)
    (hlog : s'.world.log = s.world.log ++ [e]) (hhits : s'.result.hits = s.result.hits) :
    Faultless engine read s s' [e] [] :=
  quiet hlog (.call e [] he .nil) (Took.one hnot) hhits

end Faultless

/-- A part of a run is without a fault, whatever it logged and searched. -/
def WithoutFault (engine : Engine) (read : ReadRequest) (s s' : State σ φ) : Prop :=
  ∃ log contents, Faultless engine read s s' log contents

theorem WithoutFault.trans {engine : Engine} {read : ReadRequest} {s s₁ s' : State σ φ}
    (h₁ : WithoutFault engine read s s₁) (h₂ : WithoutFault engine read s₁ s') :
    WithoutFault engine read s s' := by
  obtain ⟨log₁, contents₁, h₁⟩ := h₁
  obtain ⟨log₂, contents₂, h₂⟩ := h₂
  exact ⟨_, _, h₁.trans h₂⟩

/-! ## §2 — the walk. -/

section Walk

variable {job : Job σ φ} {read : ReadRequest}

theorem inTime_faultless {s s' : State σ φ} (h : inTime job s = (.ok (), s')) :
    WithoutFault job.engine read s s' := by
  obtain ⟨w, hw, rfl⟩ := Work.io_ok h
  exact ⟨_, _, Faultless.still (expired_ok hw) rfl⟩

theorem still_faultless {s s' : State σ φ} (hlog : s'.world.log = s.world.log)
    (hhits : s'.result.hits = s.result.hits) : WithoutFault job.engine read s s' :=
  ⟨_, _, Faultless.still hlog hhits⟩

theorem note_faultless (e : Event φ) (he : e.Succeeded) (hnot : ∀ p, e ≠ .searched p)
    (s : State σ φ) : WithoutFault job.engine read s (s.note e) :=
  ⟨_, _, Faultless.one e he hnot rfl rfl⟩

variable (hread : job.request.read = some read)

include hread

/-- A content that is searched is counted, and then it gives its hit or the read fails. -/
theorem searchBytes_faultless {path : Str} {bytes : Bytes} {s s' : State σ φ}
    (htext : isText bytes = true) (h : searchBytes job path bytes s = (.ok (), s')) :
    s'.world.log = s.world.log ++ [.searched path] ∧
      s'.result.hits
        = s.result.hits ++ [readHit path (hex (job.engine.sha256 bytes)) bytes read.range] ∧
      Suits job.engine read bytes := by
  obtain ⟨_, s₁, h₁, h⟩ := bind_ok h
  obtain ⟨_, s₂, h₂, h⟩ := bind_ok h
  obtain ⟨-, rfl⟩ := Prod.mk.inj h₂
  rw [hread] at h
  obtain ⟨_, _, h₃, h⟩ := bind_ok h
  obtain ⟨hs, rfl⟩ := Prod.mk.inj h₃
  cases hs
  obtain ⟨w, hw, rfl⟩ := Work.io_ok h₁
  split at h
  case isTrue => cases h
  case isFalse hdigest =>
    split at h
    case isTrue => cases h
    case isFalse hbounds =>
      split at h
      case isTrue => cases h
      case isFalse =>
        obtain ⟨-, rfl⟩ := Prod.mk.inj h
        simp only [gt_iff_lt, Bool.or_eq_true, decide_eq_true_eq, Bool.not_eq_true', not_or, not_lt,
          Bool.not_eq_false] at hbounds
        refine ⟨?_, rfl, htext, fun digest hd => ?_, hbounds.1.1, hbounds.1.2, hbounds.2⟩
        · show w.log ++ [.searched path] = _
          rw [expired_ok hw]
        · rw [hd] at hdigest
          simpa using hdigest

theorem searchFile_faultless {fd : φ} {path : Str} {s s' : State σ φ}
    (h : searchFile job fd path s = (.ok (), s')) (hc : s'.result.coverage = .complete) :
    WithoutFault job.engine read s s' := by
  unfold searchFile at h
  split at h
  case isTrue =>
    obtain ⟨-, rfl⟩ := Prod.mk.inj h
    exact still_faultless rfl rfl
  case isFalse hpath =>
    obtain ⟨r, s₁, h₁, h⟩ := bind_ok h
    obtain ⟨hr, rfl⟩ := Prod.mk.inj h₁
    have hcap : captureTwice job fd path s.world = (r, (captureTwice job fd path s.world).2) := by
      rw [← Except.ok.inj hr]
      rfl
    rcases r with code | content
    · cases code
      case deadline => cases h
      -- every other failure is an issue
      all_goals
        obtain ⟨-, rfl⟩ := Prod.mk.inj h
        exact not_complete_of_issue hc
    · obtain ⟨log, hlog, hw⟩ := captureTwice_log hcap
      have hfile : Sound {} log := hlog.sound rfl rfl
      rcases content with _ | bytes
      · obtain ⟨-, rfl⟩ := Prod.mk.inj h
        exact ⟨log, [], Faultless.quiet hw hfile.settled (Took.none hlog.not_searched) rfl⟩
      · have hsafe := safe_captureTwice job fd path s.world.log s.world (Grown.refl _)
        rw [hcap] at hsafe
        obtain ⟨-, htext⟩ := hsafe.2 bytes rfl
        obtain ⟨hlog', hhits, hsuits⟩ := searchBytes_faultless hread htext h
        rw [hread] at hpath
        have heq : read.path = path := by simpa using hpath
        subst heq
        refine ⟨log ++ [.searched read.path], [bytes], ?_, ?_, hlog.took, hhits, ?_⟩
        · rw [hlog', ← List.append_assoc, ← hw]
          rfl
        · exact hfile.settled.append (.call _ [] trivial .nil)
        · intro x hx
          rw [List.mem_singleton.1 hx]
          exact hsuits

section Descend

variable {descend : φ → Str → Work σ φ Unit}
  (hkeeps : ∀ fd dir, Keeps (fun s : State σ φ => s.result.coverage = .incomplete) (descend fd dir))
  (hd : ∀ {fd dir s s'}, descend fd dir s = (.ok (), s') → s'.result.coverage = .complete →
    WithoutFault job.engine read s s')

include hd

theorem visitAllowed_faultless {path : Str} {node : φ} {kind : FileType} {s s' : State σ φ}
    (h : visitAllowed job descend path node kind s = (.ok (), s'))
    (hc : s'.result.coverage = .complete) : WithoutFault job.engine read s s' := by
  cases kind
  case directory =>
    obtain ⟨r, s₁, h₁, h⟩ := bind_ok h
    obtain ⟨hr₁, rfl⟩ := Prod.mk.inj h₁
    rcases r with code | ⟨⟩
    · cases code
      case readFailed =>
        obtain ⟨-, rfl⟩ := Prod.mk.inj h
        exact not_complete_of_issue hc
      all_goals cases h
    · obtain ⟨-, rfl⟩ := Prod.mk.inj h
      exact hd (Prod.ext (Except.ok.inj hr₁) rfl) hc
  case regularFile => exact searchFile_faultless hread h hc
  case other =>
    obtain ⟨-, rfl⟩ := Prod.mk.inj h
    exact still_faultless rfl rfl

theorem visitPath_faultless {path : Str} {s s' : State σ φ}
    (h : visitPath job descend path s = (.ok (), s')) (hc : s'.result.coverage = .complete) :
    WithoutFault job.engine read s s' := by
  obtain ⟨r, s₁, h₁, h⟩ := bind_ok h
  obtain ⟨hr₁, hs₁⟩ := Prod.mk.inj h₁
  rcases r with code | node
  · obtain ⟨-, rfl⟩ := Prod.mk.inj h
    exact not_complete_of_issue hc
  · obtain ⟨r', s₂, h₂, h⟩ := bind_ok h
    obtain ⟨hr₂, hs₂⟩ := Prod.mk.inj h₂
    rcases r' with code | metadata
    · obtain ⟨-, rfl⟩ := Prod.mk.inj h
      exact not_complete_of_issue hc
    · obtain ⟨w₁, hw₁, rfl⟩ := Work.io_ok (Prod.ext (Except.ok.inj hr₁) hs₁)
      obtain ⟨w₂, hw₂, rfl⟩ := Work.io_ok (Prod.ext (Except.ok.inj hr₂) hs₂)
      have hopened : WithoutFault job.engine read s { s with world := w₁ } :=
        ⟨_, _, Faultless.one (.opened path (.ok node)) trivial (fun _ h => by cases h) (anchor_log hw₁) rfl⟩
      have hstat : WithoutFault job.engine read { s with world := w₁ } { s with world := w₂ } :=
        ⟨_, _, Faultless.one (.stat node (some metadata)) trivial (fun _ h => by cases h)
          (fstat_log hw₂) rfl⟩
      obtain ⟨_, _, h₃, h⟩ := bind_ok h
      obtain ⟨-, rfl⟩ := Prod.mk.inj h₃
      obtain ⟨_, s₃, h₄, h⟩ := bind_ok h
      obtain ⟨-, hs₃⟩ := Prod.mk.inj h₄
      have hnote : WithoutFault job.engine read { s with world := w₂ } s₃ := by
        subst hs₃
        exact note_faultless _ (by exact trivial) (fun _ h => by cases h) _
      refine ((hopened.trans hstat).trans hnote).trans ?_
      split at h
      · exact visitAllowed_faultless hread hd h hc
      · obtain ⟨-, rfl⟩ := Prod.mk.inj h
        exact still_faultless rfl rfl

theorem visit_faultless {dir : Str} {n : DirName} {s s' : State σ φ}
    (h : visit job descend dir n s = (.ok (), s')) (hc : s'.result.coverage = .complete) :
    WithoutFault job.engine read s s' := by
  unfold visit at h
  split at h
  · obtain ⟨-, rfl⟩ := Prod.mk.inj h
    exact still_faultless rfl rfl
  · obtain ⟨_, _, h₁, h⟩ := bind_ok h
    obtain ⟨-, rfl⟩ := Prod.mk.inj h₁
    split at h
    · cases h
    · obtain ⟨_, s₁, h₁, h⟩ := bind_ok h
      obtain ⟨-, rfl⟩ := Prod.mk.inj h₁
      have hvisited : WithoutFault job.engine read s s.visited := still_faultless rfl rfl
      refine hvisited.trans ?_
      unfold visitName at h
      cases hname : Utf8.decode n.bytes with
      | none =>
        rw [hname] at h
        obtain ⟨-, rfl⟩ := Prod.mk.inj h
        exact still_faultless rfl rfl
      | some name =>
        rw [hname] at h
        obtain ⟨_, _, h₁, h⟩ := bind_ok h
        obtain ⟨-, rfl⟩ := Prod.mk.inj h₁
        split at h
        · obtain ⟨-, rfl⟩ := Prod.mk.inj h
          exact still_faultless rfl rfl
        · split at h
          · obtain ⟨-, rfl⟩ := Prod.mk.inj h
            exact still_faultless rfl rfl
          · exact visitPath_faultless hread hd h hc

include hkeeps

theorem entries_faultless {dir : Str} : ∀ {stream : Stream σ} {s s' : State σ φ},
    entries job descend dir stream s = (.ok (), s') → s'.result.coverage = .complete →
      WithoutFault job.engine read s s'
  | .done, s, s', h, _ => by
      obtain ⟨-, rfl⟩ := Prod.mk.inj h
      exact note_faultless (.entry dir .done) trivial (fun _ h => by cases h) s
  | .failed, s, s', h, _ => by
      obtain ⟨_, s₁, -, h⟩ := bind_ok h
      obtain ⟨_, s₂, -, h⟩ := bind_ok h
      cases h
  | .name n rest, s, s', h, hc => by
      obtain ⟨_, s₁, h₁, h⟩ := bind_ok h
      obtain ⟨-, rfl⟩ := Prod.mk.inj h₁
      obtain ⟨_, s₂, h₂, h⟩ := bind_ok h
      obtain ⟨_, s₃, h₃, h⟩ := bind_ok h
      obtain ⟨_, _, h₄, h⟩ := bind_ok h
      obtain ⟨hs, rfl⟩ := Prod.mk.inj h₄
      cases hs
      -- the coverage was still complete when this entry was done
      have hc₃ := complete_before (stable_incomplete.keeps_entries hkeeps dir _) h hc
      have hname : WithoutFault job.engine read s (s.note (.entry dir (.name n))) :=
        note_faultless (.entry dir (.name n)) trivial (fun _ h => by cases h) s
      have hstart := hname.trans (inTime_faultless h₂)
      exact (hstart.trans (visit_faultless hread hd h₃ hc₃)).trans (entries_faultless h hc)

end Descend

/-- **A walk of a read that ends well with complete coverage is without a fault.** -/
theorem walk_faultless : ∀ (levels : Nat) {fd : φ} {dir : Str} {s s' : State σ φ},
    walk job levels fd dir s = (.ok (), s') → s'.result.coverage = .complete →
      WithoutFault job.engine read s s'
  | 0, fd, dir, s, s', h, hc => by
      obtain ⟨_, s₁, -, h⟩ := bind_ok h
      obtain ⟨-, rfl⟩ := Prod.mk.inj h
      exact not_complete_of_issue hc
  | levels + 1, fd, dir, s, s', h, hc => by
      obtain ⟨_, s₁, h₁, h⟩ := bind_ok h
      obtain ⟨_, s₂, h₂, h⟩ := bind_ok h
      obtain ⟨hr₂, hs₂⟩ := Prod.mk.inj h₂
      obtain ⟨observed, log₁, hlog₁, hw, -, -⟩ := enter_log (Prod.ext hr₂ rfl)
      have hent : WithoutFault job.engine read s₁ s₂ := by
        subst hs₂
        exact ⟨log₁, [], Faultless.quiet hw hlog₁.sound.settled hlog₁.took rfl⟩
      obtain ⟨stream, s₃, h₃, h⟩ := bind_ok h
      obtain ⟨w₃, hw₃, rfl⟩ := Work.io_ok h₃
      obtain ⟨readable, hopen⟩ := openDir_log hw₃
      have hdir : WithoutFault job.engine read s₂ { s₂ with world := w₃ } := by
        refine ⟨_, [], Faultless.quiet hopen ?_ ?_ rfl⟩
        · exact .call _ _ trivial (.call _ [] trivial .nil)
        · exact .other _ _ [] (fun _ h => by cases h) (Took.one fun _ h => by cases h)
      refine (((inTime_faultless h₁).trans hent).trans hdir).trans ?_
      exact entries_faultless hread (stable_incomplete.keeps_walk levels)
        (fun h hc => walk_faultless levels h hc) h hc

end Walk

/-! ## §3 — a success. -/

/-- What `traverse` left of a read: the walk, well ended. -/
theorem traverse_read {job : Job σ φ} {read : ReadRequest} (hread : job.request.read = some read)
    {s s' : State σ φ} (h : traverse job s = (.ok (), s')) (hc : s'.result.coverage = .complete) :
    WithoutFault job.engine read s s' := by
  obtain ⟨r, s₁, h₁, h⟩ := bind_ok h
  obtain ⟨hr, rfl⟩ := Prod.mk.inj h₁
  rcases r with code | ⟨⟩
  · -- an error of the walk is an error of the read
    obtain ⟨_, _, h₂, h⟩ := bind_ok h
    obtain ⟨hs, rfl⟩ := Prod.mk.inj h₂
    cases hs
    rw [hread] at h
    cases h
  · obtain ⟨-, rfl⟩ := Prod.mk.inj h
    by_cases hscope : job.request.validateScopeOnly
    · rw [if_pos hscope]
      exact still_faultless rfl rfl
    · rw [if_neg hscope] at hr hc ⊢
      exact walk_faultless hread _ (Prod.ext (Except.ok.inj hr) rfl) hc

/-- A hit of a read, and the content it was read from. -/
structure ReadFrom (engine : Engine) (read : ReadRequest) (bytes : Bytes) (hit : Hit) : Prop where
  path : hit.path = read.path
  range : hit.range = read.range
  excerpt : hit.excerpt.range = read.range
  untruncated : hit.excerpt.truncated = false
  inside : read.range.start ≤ read.range.stop ∧ read.range.stop ≤ bytes.length
  first : isCharBoundary bytes read.range.start = true
  last : isCharBoundary bytes read.range.stop = true
  text : Utf8.encode hit.excerpt.text = (bytes.take read.range.stop).drop read.range.start
  digest : hit.fileSha256 = hex (engine.sha256 bytes)
  expected : ∀ digest, read.expectedFileSha256 = some digest → hit.fileSha256 = digest

theorem Suits.readFrom {engine : Engine} {read : ReadRequest} {bytes : Bytes}
    (h : Suits engine read bytes) (hordered : read.range.start ≤ read.range.stop) :
    ReadFrom engine read bytes (readHitOf engine read bytes) where
  path := rfl
  range := rfl
  excerpt := rfl
  untruncated := rfl
  inside := ⟨hordered, h.inside⟩
  first := h.first
  last := h.last
  text := by
    have hslice : Sliceable bytes read.range.start read.range.stop := ⟨hordered, h.first, h.last⟩
    exact hslice.encode h.text
  digest := rfl
  expected digest hd := (h.expected digest hd).symm

/-- What a read that succeeds went through: `walked` and `verified` are the log of the run, and
`contents` what was captured of its file, one for each time the walk came to it. -/
structure ReadWhole (engine : Engine) (r : Request) (read : ReadRequest) (success : Success)
    (contents : List Bytes) (observations : List (Str × Option Bytes))
    (walked verified : List (Event φ)) : Prop where
  reasons : success.reasons = []
  coverage : success.coverage = .complete
  failed : success.counts.failed = 0
  /-- No call failed, before the target was captured or after. -/
  settled : Settled (walked ++ verified)
  /-- The ignore files that were hashed were found again. -/
  snapshot : success.policySnapshotHash = snapshotHash engine observations
  verify : VerifyLog observations verified
  /-- No content that was searched went without its hit. -/
  took : Took read.path walked contents
  hits : List.Forall₂ (ReadFrom engine read) contents success.hits
  nonempty : success.hits ≠ []
  passed : ∃ scope, Scope.new engine r.scope = .ok scope ∧
    Passed engine scope.toFilter (walked ++ verified) read.path

theorem revalidated_same {job : Job σ φ} {s s' : State σ φ} (h : Revalidated job s s')
    (hc : s'.result.reasons = []) : s'.result = s.result ∧ s'.scope = s.scope ∧
      ∃ log, VerifyLog s.scope.observations log ∧ s'.world.log = s.world.log ++ log := by
  cases h with
  | same w h =>
    obtain ⟨log, hlog, hw⟩ := verify_log h
    exact ⟨rfl, rfl, log, hlog, hw⟩
  | changed code w h =>
    -- the change would be a reason
    have hmem : code ∈ ({ s with world := w }.issue code).result.reasons := by
      show code ∈ (if code ∈ s.result.reasons then s.result.reasons else s.result.reasons ++ [code])
      split
      case isTrue hin => exact hin
      case isFalse => exact List.mem_append_right _ (List.mem_singleton_self code)
    rw [hc] at hmem
    cases hmem

/-- **Reads are all or nothing**: whatever the system answers, a read that succeeds met no failure, no
limit and no change, and every content it looked at gave the hit asked for. -/
theorem search_readWhole {engine : Engine} {os : Os σ φ} {root : φ} {r : Request} {read : ReadRequest}
    {state : σ} {w' : World σ φ} {success : Success} (hread : r.read = some read)
    (h : search engine os root r ⟨state, []⟩ = (.ok success, w')) :
    ∃ contents observations walked verified, w'.log = walked ++ verified ∧
      ReadWhole engine r read success contents observations walked verified := by
  obtain ⟨matcher', deadline', -, hpromised⟩ := search_promised h
  obtain ⟨scope', hscope', hpassed⟩ := search_passed h
  obtain ⟨hreasons, hhits⟩ := hpromised.read (by rw [hread]; rfl)
  have hcoverage : success.coverage = .complete := hpromised.reasoned.coverage.2 hreasons
  obtain ⟨matcher, scope, hvalid, -, hscope, started, w₁, s', hw₁, hrun, hw'⟩ := search_ok h
  generalize started + r.deadlineMs * 1000000 = deadline at hrun
  -- the walk, the revalidation, and the two errors of a read
  obtain ⟨_, s₁, h₁, hrun⟩ := bind_ok hrun
  obtain ⟨_, s₂, h₂, hrun⟩ := bind_ok hrun
  obtain ⟨_, _, h₃, hrun⟩ := bind_ok hrun
  obtain ⟨hs, rfl⟩ := Prod.mk.inj h₃
  cases hs
  split at hrun
  case isTrue => cases hrun
  case isFalse =>
    split at hrun
    case isTrue => cases hrun
    case isFalse =>
      obtain ⟨ended, s₃, h₄, hrun⟩ := bind_ok hrun
      obtain ⟨hsuccess, rfl⟩ := Prod.mk.inj hrun
      obtain ⟨w₃, hw₃, rfl⟩ := Work.io_ok h₄
      have hresult : success = { s₂.result with
          policySnapshotHash := snapshotHash engine s₂.scope.observations
          elapsedMs := engine.elapsedMs (ended - started) } := (Except.ok.inj hsuccess).symm
      subst hresult
      -- without a reason the revalidation has changed nothing
      obtain ⟨hsame, hscopes, verified, hverify, hlog₂⟩ := revalidated_same (revalidate_ok h₂) hreasons
      have hc₁ : s₁.result.coverage = .complete := hsame ▸ hcoverage
      obtain ⟨walked, contents, hwalk⟩ := traverse_read hread h₁ hc₁
      have hlog : w'.log = walked ++ verified := by
        rw [← hw']
        show w₃.log = _
        rw [instant_log hw₃, hlog₂, hwalk.logged, hw₁, List.nil_append]
      have hfound : s₂.result.hits = contents.map (readHitOf engine read) := by
        rw [hsame, hwalk.hits]
        rfl
      refine ⟨contents, s₂.scope.observations, walked, verified, hlog, hreasons, hcoverage, ?_,
        hwalk.settled.append hverify.settled, rfl, hscopes ▸ hverify, hwalk.took, ?_, hhits, ?_⟩
      · exact Decidable.byContradiction fun hf => hpromised.reasoned.failed hf hreasons
      · show List.Forall₂ _ contents s₂.result.hits
        rw [hfound, List.forall₂_map_right_iff, List.forall₂_same]
        intro bytes hb
        exact (hwalk.suits bytes hb).readFrom ((validate_ok hvalid).read read hread).2.1
      · obtain ⟨hit, hhit⟩ := List.exists_mem_of_ne_nil _ hhits
        have hp := hpassed hit hhit
        have hpath : hit.path = read.path := by
          change hit ∈ s₂.result.hits at hhit
          rw [hfound] at hhit
          obtain ⟨bytes, -, rfl⟩ := List.mem_map.1 hhit
          rfl
        rw [hpath, hlog] at hp
        exact ⟨scope', hscope', hp⟩

/-- A read of one byte of a file with a given content. -/
def ReadRequest.byte (path : Str) (start : Nat) (content : Bytes) : ReadRequest where
  path := path
  range := ⟨start, start + 1⟩
  expectedFileSha256 := some (hex (Sha256.digest content))

/-- The sample request with a read. -/
def Request.readOf (read : ReadRequest) : Request := { Request.literal ['a'] with read := some read }

theorem search_readWhole_oneFile : ∃ success contents observations,
    ∃ walked verified : List (Event Node), success.hits.map (·.excerpt.text) = [['a']] ∧ ReadWhole Engine.plain
      (.readOf (.byte ['a'] 1 oneFileText)) (.byte ['a'] 1 oneFileText) success contents
        observations walked verified := by
  have hrun : (search Engine.plain oneFile.os oneFile (.readOf (.byte ['a'] 1 oneFileText))
      ⟨0, []⟩).1.toOption.map (fun s => s.hits.map (·.excerpt.text)) = some [['a']] := by decide +kernel
  rcases h : search Engine.plain oneFile.os oneFile (.readOf (.byte ['a'] 1 oneFileText))
    ⟨0, []⟩ with ⟨e | success, w'⟩
  · rw [h] at hrun
    cases hrun
  · rw [h] at hrun
    obtain ⟨contents, observations, walked, verified, -, hwhole⟩ := search_readWhole rfl h
    exact ⟨success, contents, observations, walked, verified, Option.some.inj hrun, hwhole⟩

end JevGrep.Worker
