/-
# `JevGrep.Worker.Passed` — every hit passed the scope, at every level.

A file is asked for only below directories that were asked for and entered before, each with the rules
of all directories above it loaded. §1 what it is to pass; §2 the rules that `enter` loads; §3 the walk;
§4 the hits of a success.
-/
import JevGrep.Worker.Result

namespace JevGrep.Worker

open JevGrep.Lib
open Exec (Triple)

variable {σ φ : Type}

/-! ## §1 — what it is to pass. -/

/-- The rules of a directory, compiled from its two ignore files as they were captured. -/
def LoadedFrom (log : List (Event φ)) (dir : Str) (compiled : Compiled) : Prop :=
  ∃ gitignore ignore, Event.policy (child dir GITIGNORE) gitignore ∈ log ∧
    Event.policy (child dir IGNORE) ignore ∈ log ∧
    compiled = ⟨gitignoreOf dir gitignore, gitignoreOf dir ignore⟩

/-- The scope was asked about a path and allowed it, with the rules of every directory above it. -/
def Allowed (engine : Engine) (filter : Filter) (log : List (Event φ)) (path : Str)
    (directory : Bool) : Prop :=
  ∃ rules : Rules, Event.checked path directory rules ∈ log ∧
    filter.allowsUnder engine rules path directory = true ∧
    (filter.respectIgnore = true → ∀ d ∈ containing path, ∃ compiled,
      rules d = some compiled ∧ LoadedFrom log d compiled)

/-- A path that passed: it was allowed as a file, and every directory above it as a directory. -/
structure Passed (engine : Engine) (filter : Filter) (log : List (Event φ)) (path : Str) : Prop where
  valid : validPath path = true
  shown : filter.excludedPath path = false
  file : Allowed engine filter log path false
  above : ∀ d ∈ containing path, d ≠ [] → Allowed engine filter log d true

section Mono

variable {engine : Engine} {filter : Filter} {log log' : List (Event φ)} {path : Str}

theorem LoadedFrom.mono {compiled : Compiled} (h : LoadedFrom log path compiled) (hlog : log <+: log') :
    LoadedFrom log' path compiled := by
  obtain ⟨g, i, hg, hi, hc⟩ := h
  exact ⟨g, i, hlog.subset hg, hlog.subset hi, hc⟩

theorem Allowed.mono {directory : Bool} (h : Allowed engine filter log path directory)
    (hlog : log <+: log') : Allowed engine filter log' path directory := by
  obtain ⟨rules, hchecked, hallowed, hrules⟩ := h
  refine ⟨rules, hlog.subset hchecked, hallowed, fun hon d hd => ?_⟩
  obtain ⟨compiled, hc, hloaded⟩ := hrules hon d hd
  exact ⟨compiled, hc, hloaded.mono hlog⟩

theorem Passed.mono (h : Passed engine filter log path) (hlog : log <+: log') :
    Passed engine filter log' path :=
  ⟨h.valid, h.shown, h.file.mono hlog, fun d hd hne => (h.above d hd hne).mono hlog⟩

end Mono

/-! ## §2 — the rules that `enter` loads. -/

section Enter

variable {engine : Engine} {os : Os σ φ} {deadline : Nat} {filter : Filter} {known : Str → Prop}

/-- All rules come from captured ignore files, and the directories of `known` have theirs. -/
structure Ruling (filter : Filter) (known : Str → Prop) (e : Entering σ φ) : Prop where
  filter_eq : e.scope.toFilter = filter
  loaded : ∀ d compiled, e.scope.rules d = some compiled → LoadedFrom e.world.log d compiled
  known_isSome : ∀ d, known d → (e.scope.rules d).isSome = true

theorem Ruling.later {e : Entering σ φ} (h : Ruling filter known e) {w : World σ φ}
    (hw : e.world.log <+: w.log) {scope : Scope} (hfilter : scope.toFilter = e.scope.toFilter)
    (hrules : scope.rules = e.scope.rules) : Ruling filter known ⟨w, scope⟩ :=
  ⟨hfilter.trans h.filter_eq, fun d compiled hd => (h.loaded d compiled (hrules ▸ hd)).mono hw,
    fun d hd => by rw [hrules]; exact h.known_isSome d hd⟩

/-- From `P`, `m` returns a value with `Q` where it ends well, and keeps the rules as they are. -/
def Loads {α : Type} (filter : Filter) (known : Str → Prop) (P : Entering σ φ → Prop)
    (m : Enter σ φ α) (Q : α → Entering σ φ → Prop) : Prop :=
  Triple (fun e => Ruling filter known e ∧ P e) m (fun a e => Ruling filter known e ∧ Q a e)
    fun _ => Ruling filter known

theorem loads_io {α : Type} {codes : List Code} {R : α → Prop} {m : Io σ φ α} (h : Safe codes R m)
    {P : Entering σ φ → Prop}
    (hP : ∀ e w, P e → e.world.log <+: w.log → P { e with world := w }) :
    Loads filter known P (Enter.io m) fun _ => P := by
  intro e he
  refine Triple.onPart (h e.world.log) (P := (· = e)) ?_ ?_ ?_ e rfl
  · rintro _ rfl
    exact Grown.refl _
  · rintro _ _ w rfl hw
    exact ⟨he.1.later hw.1.le rfl rfl, hP _ _ he.2 hw.1.le⟩
  · rintro _ code w rfl hw
    exact he.1.later hw.1.le rfl rfl

/-- Every line that is fed goes into the builder. -/
theorem loads_addLines {P : Entering σ φ → Prop}
    (hP : ∀ e w, P e → e.world.log <+: w.log → P { e with world := w })
    (hscope : ∀ e scope, P e → P { e with scope := scope }) :
    ∀ (lines : List Str) (builder : Gitignore),
      Loads filter known P (addLines engine os deadline builder lines)
        fun g e => P e ∧ g = { builder with lines := builder.lines ++ lines }
  | [], builder => Triple.pure fun e he => ⟨he.1, he.2, by simp⟩
  | line :: lines, builder => by
      have htime : Safe [Code.deadline] (fun _ => True) (expired os deadline) := safe_expired (by decide)
      refine Triple.bind (loads_io htime hP) fun _ => ?_
      refine Triple.bind (Q := fun _ e => Ruling filter known e ∧ P e) (Triple.modify fun e he => ?_)
        fun _ => Triple.get_bind fun s hs => Triple.ite (fun _ => Triple.fail ?_) fun _ => ?_
      · exact ⟨he.1.later (List.prefix_refl _) rfl rfl, hscope e _ he.2⟩
      · rintro _ rfl
        exact hs.1
      · refine Triple.ite (fun _ => ?_) fun _ => Triple.fail ?_
        · refine Triple.con (fun _ h => h ▸ hs) (loads_addLines hP hscope lines _) ?_ fun _ _ he => he
          rintro g e ⟨he, hp, rfl⟩
          exact ⟨he, hp, by simp⟩
        · rintro _ rfl
          exact hs.1

/-- One ignore file: its rules are those of the content that was captured. -/
theorem loads_load {dir name : Str} {P : Entering σ φ → Prop}
    (hP : ∀ e w, P e → e.world.log <+: w.log → P { e with world := w })
    (hscope : ∀ e scope, P e → P { e with scope := scope }) :
    Loads filter known P (load engine os deadline dir name) fun g e =>
      P e ∧ ∃ bytes, Event.policy (child dir name) bytes ∈ e.world.log ∧ g = gitignoreOf dir bytes := by
  refine Triple.bind (loads_io (safe_policyBytes _) hP) fun bytes => ?_
  have hQ : ∀ (e : Entering σ φ) (w : World σ φ),
      P e ∧ Event.policy (child dir name) bytes ∈ e.world.log → e.world.log <+: w.log →
      P { e with world := w } ∧ Event.policy (child dir name) bytes ∈ w.log :=
    fun e w he hw => ⟨hP e w he.1 hw, hw.subset he.2⟩
  refine Triple.bind (Q := fun _ e => Ruling filter known e ∧
    P e ∧ Event.policy (child dir name) bytes ∈ e.world.log) (Triple.modify fun e he => ?_) fun _ => ?_
  · exact ⟨he.1.later (List.prefix_append _ _) rfl rfl, hP e _ he.2 (List.prefix_append _ _),
      List.mem_append_right _ (List.mem_singleton_self _)⟩
  · refine Triple.bind (Q := fun g e => Ruling filter known e ∧
      (P e ∧ Event.policy (child dir name) bytes ∈ e.world.log) ∧ g = gitignoreOf dir bytes) ?_
      fun builder => ?_
    · -- the builder ends with the lines of the content
      rcases bytes with _ | bytes
      · exact Triple.pure fun e he => ⟨he.1, he.2, rfl⟩
      · refine Triple.bind (Q := fun _ e => Ruling filter known e ∧ P e ∧
          Event.policy (child dir name) (some bytes) ∈ e.world.log) (Triple.modify fun e he => ?_)
          fun _ => Triple.get_bind fun s hs => Triple.ite (fun _ => Triple.fail ?_) fun _ => ?_
        · exact ⟨he.1.later (List.prefix_refl _) rfl rfl, hscope e _ he.2.1, he.2.2⟩
        · rintro _ rfl
          exact hs.1
        · cases hdecode : Utf8.decode bytes with
          | none =>
            refine Triple.fail ?_
            rintro _ rfl
            exact hs.1
          | some text =>
            refine Triple.con (fun _ h => h ▸ hs) (loads_addLines hQ
              (fun e scope he => ⟨hscope e scope he.1, he.2⟩) (strLines text) _) ?_ fun _ _ he => he
            rintro g e ⟨he, hq, rfl⟩
            exact ⟨he, hq, by simp [gitignoreOf, linesOf, hdecode]⟩
    · refine Triple.bind (Q := fun _ e => Ruling filter known e ∧
        (P e ∧ Event.policy (child dir name) bytes ∈ e.world.log) ∧ builder = gitignoreOf dir bytes)
        (Triple.modify fun e he => ?_) fun _ => ?_
      · exact ⟨he.1.later (List.prefix_refl _) rfl rfl, ⟨hscope e _ he.2.1.1, he.2.1.2⟩, he.2.2⟩
      · refine Triple.ite (fun _ => Triple.pure fun e he => ?_) fun _ => Triple.fail fun e he => he.1
        exact ⟨he.1, he.2.1.1, bytes, he.2.1.2, he.2.2⟩

/-- `enter` gives a directory its rules, and takes none away. -/
theorem ruling_enter (dir : Str) :
    Triple (Ruling filter known) (enter engine os deadline dir : Enter σ φ Unit)
      (fun _ => Ruling filter fun d => known d ∨ filter.respectIgnore = true ∧ d = dir)
      fun _ => Ruling filter known := by
  refine Triple.get_bind fun s hs => Triple.ite (fun hon => ?_) fun hoff => Triple.pure ?_
  · refine Triple.get_bind fun s' hs' => Triple.ite (fun _ => Triple.fail ?_) fun _ => ?_
    · rintro _ rfl
      exact hs' ▸ hs
    · refine Triple.con_pre (U := fun e => Ruling filter known e ∧ True) ?_ ?_
      · rintro _ rfl
        exact ⟨hs' ▸ hs, trivial⟩
      · refine Triple.bind (loads_load (fun _ _ _ _ => trivial) fun _ _ _ => trivial) fun g => ?_
        refine Triple.bind (loads_load (P := fun e => True ∧ ∃ bytes,
          Event.policy (child dir GITIGNORE) bytes ∈ e.world.log ∧ g = gitignoreOf dir bytes) ?_ ?_)
          fun i => Triple.modify fun e he => ?_
        · rintro e w ⟨-, bytes, hmem, hg⟩ hw
          exact ⟨trivial, bytes, hw.subset hmem, hg⟩
        · exact fun e scope he => he
        · obtain ⟨hruling, ⟨-, gitignore, hg, rfl⟩, ignore, hi, rfl⟩ := he
          refine ⟨hruling.filter_eq, fun d compiled hd => ?_, fun d hd => ?_⟩
          · change Rules.insert _ _ _ d = _ at hd
            rw [Rules.insert] at hd
            split at hd
            case isTrue heq =>
              cases hd
              rw [heq]
              exact ⟨gitignore, ignore, hg, hi, rfl⟩
            case isFalse => exact hruling.loaded d compiled hd
          · show (Rules.insert _ _ _ d).isSome = true
            rw [Rules.insert]
            split
            case isTrue => rfl
            case isFalse hne =>
              rcases hd with hd | ⟨-, heq⟩
              · exact hruling.known_isSome d hd
              · exact absurd heq hne
  · rintro _ rfl
    refine ⟨hs.filter_eq, hs.loaded, fun d hd => ?_⟩
    rcases hd with hd | ⟨hon, -⟩
    · exact hs.known_isSome d hd
    · rw [← hs.filter_eq] at hon
      exact absurd hon hoff

end Enter

/-! ## §3 — the walk. -/

section Walk

variable (job : Job σ φ) (filter : Filter)

/-- A directory on the way: allowed, and every directory above it too. -/
def Reached (log : List (Event φ)) (dir : Str) : Prop :=
  ∀ d ∈ above dir, d ≠ [] → Allowed job.engine filter log d true

/-- What holds with `ds` entered: they were reached, their rules are loaded, and every hit passed. -/
structure Passing (ds : List Str) (s : State σ φ) : Prop where
  ruling : Ruling filter (fun d => filter.respectIgnore = true ∧ ∃ dir ∈ ds, d ∈ above dir)
    ⟨s.world, s.scope⟩
  reached : ∀ dir ∈ ds, Reached job filter s.world.log dir
  hits : ∀ hit ∈ s.result.hits, Passed job.engine filter s.world.log hit.path

/-- An entry in scope, below directories that were reached and have their rules. -/
structure InScope (directory : Bool) (path : Str) (s : State σ φ) : Prop where
  allowed : Allowed job.engine filter s.world.log path directory
  shown : filter.excludedPath path = false
  above : ∀ d ∈ containing path, d ≠ [] → Allowed job.engine filter s.world.log d true
  ruled : filter.respectIgnore = true → ∀ d ∈ containing path, (s.scope.rules d).isSome = true

/-- The root needs not be in scope. -/
def Cleared (directory : Bool) (path : Str) (s : State σ φ) : Prop :=
  path ≠ [] → InScope job filter directory path s

variable {job filter}

theorem Reached.mono {log log' : List (Event φ)} {dir : Str} (h : Reached job filter log dir)
    (hlog : log <+: log') : Reached job filter log' dir :=
  fun d hd hne => (h d hd hne).mono hlog

theorem Cleared.mono {directory : Bool} {path : Str} {s s' : State σ φ}
    (h : Cleared job filter directory path s) (hlog : s.world.log <+: s'.world.log)
    (hrules : s'.scope.rules = s.scope.rules) : Cleared job filter directory path s' := by
  intro hne
  obtain ⟨hallowed, hshown, habove, hruled⟩ := h hne
  exact ⟨hallowed.mono hlog, hshown, fun d hd hd' => (habove d hd hd').mono hlog,
    fun hon d hd => by rw [hrules]; exact hruled hon d hd⟩

theorem Cleared.passed {path : Str} {s : State σ φ} (h : Cleared job filter false path s)
    (hvalid : validPath path = true) : Passed job.engine filter s.world.log path := by
  have hne : path ≠ [] := fun hnil => by
    rw [hnil] at hvalid
    exact absurd hvalid (by decide)
  obtain ⟨hallowed, hshown, habove, -⟩ := h hne
  exact ⟨hvalid, hshown, hallowed, habove⟩

theorem Cleared.reached {dir : Str} {s : State σ φ} (h : Cleared job filter true dir s) :
    Reached job filter s.world.log dir := by
  intro d hd hne
  by_cases hroot : dir = []
  · rw [hroot, above_nil] at hd
    exact absurd (List.mem_singleton.1 hd) hne
  · have hscope := h hroot
    rw [above_of_ne hroot] at hd
    rcases List.mem_cons.1 hd with rfl | hd
    · exact hscope.allowed
    · exact hscope.above d hd hne

/-- The directories above one that is entered have their rules. -/
theorem Cleared.ruled {dir : Str} {s : State σ φ} (h : Cleared job filter true dir s) {d : Str}
    (hon : filter.respectIgnore = true) (hd : d ∈ above dir) (hne : d ≠ dir) :
    (s.scope.rules d).isSome = true := by
  by_cases hroot : dir = []
  · rw [hroot, above_nil] at hd
    exact absurd ((List.mem_singleton.1 hd).trans hroot.symm) hne
  · rw [above_of_ne hroot] at hd
    rcases List.mem_cons.1 hd with rfl | hd
    · exact absurd rfl hne
    · exact (h hroot).ruled hon d hd

namespace Passing

variable {ds : List Str} {s : State σ φ}

theorem later (h : Passing job filter ds s) {w : World σ φ} (hw : s.world.log <+: w.log) :
    Passing job filter ds { s with world := w } :=
  ⟨h.ruling.later hw rfl rfl, fun dir hd => (h.reached dir hd).mono hw,
    fun hit hh => (h.hits hit hh).mono hw⟩

theorem note (h : Passing job filter ds s) (e : Event φ) : Passing job filter ds (s.note e) :=
  h.later (List.prefix_append s.world.log [e])

/-- A change of the result that keeps the hits. -/
theorem result (h : Passing job filter ds s) {success : Success} (hhits : success.hits = s.result.hits) :
    Passing job filter ds { s with result := success } :=
  ⟨h.ruling, h.reached, fun hit hh => h.hits hit (hhits ▸ hh)⟩

theorem push (h : Passing job filter ds s) {hit : Hit}
    (hpassed : Passed job.engine filter s.world.log hit.path) : Passing job filter ds (s.push hit) := by
  refine ⟨h.ruling, h.reached, fun x hx => ?_⟩
  rcases List.mem_append.1 hx with hx | hx
  · exact h.hits x hx
  · rw [List.mem_singleton.1 hx]
    exact hpassed

/-- The rules with which an entry of the innermost directory is asked for are loaded for every
directory above it. -/
theorem allowed {dir name : Str} (h : Passing job filter (dir :: ds) s) (hname : '/' ∉ name)
    {directory : Bool}
    (hallowed : s.scope.allows job.engine (child dir name) directory = true) :
    Allowed job.engine filter
      (s.note (.checked (child dir name) directory s.scope.rules)).world.log (child dir name)
      directory := by
  have hlog : s.world.log <+:
      (s.note (.checked (child dir name) directory s.scope.rules)).world.log := List.prefix_append _ _
  refine ⟨s.scope.rules, List.mem_append_right _ (List.mem_singleton_self _), ?_, fun hon d hd => ?_⟩
  · rw [← h.ruling.filter_eq]
    exact hallowed
  · rw [containing_child hname] at hd
    have hsome := h.ruling.known_isSome d ⟨hon, dir, List.mem_cons_self, hd⟩
    obtain ⟨compiled, hcompiled⟩ := Option.isSome_iff_exists.1 hsome
    exact ⟨compiled, hcompiled, (h.ruling.loaded d compiled hcompiled).mono hlog⟩

end Passing

/-- **That every hit passed is an invariant of the walk.** -/
def passing (job : Job σ φ) (filter : Filter) : Invariant job where
  Inv ds _ s := Passing job filter ds s
  Named _ name _ := '/' ∉ name
  Clear directory path s := Cleared job filter directory path s
  spare h := h
  leave h := by
    refine ⟨⟨h.ruling.filter_eq, h.ruling.loaded, fun d hd => ?_⟩,
      fun dir hd => h.reached dir (List.mem_cons_of_mem _ hd), h.hits⟩
    obtain ⟨hon, dir, hdir, habove⟩ := hd
    exact h.ruling.known_isSome d ⟨hon, dir, List.mem_cons_of_mem _ hdir, habove⟩
  called h hw := h.later hw.le
  named_called h _ := h
  clear_called h hw := h.mono hw.le rfl
  entered {ds _} dir := by
    intro s hs
    obtain ⟨h, hclear⟩ := hs
    have hreached := hclear.reached
    -- what is known before: the rules above the directories entered, and above this one
    obtain ⟨known, hknown⟩ : ∃ known : Str → Prop, ∀ d, known d ↔ filter.respectIgnore = true ∧
        ((∃ dir ∈ ds, d ∈ above dir) ∨ d ∈ above dir ∧ d ≠ dir) := ⟨_, fun _ => Iff.rfl⟩
    have hbefore : Ruling filter known ⟨s.world, s.scope⟩ := by
      refine ⟨h.ruling.filter_eq, h.ruling.loaded, fun d hd => ?_⟩
      rcases (hknown d).1 hd with ⟨hon, hentered | ⟨habove, hne⟩⟩
      · exact h.ruling.known_isSome d ⟨hon, hentered⟩
      · exact hclear.ruled hon habove hne
    have henter : EnterSafe (enter job.engine job.os job.deadline dir : Enter σ φ Unit) := safe_enter dir
    have hgrown := henter s.world.log s.scope.toFilter ⟨s.world, s.scope⟩ ⟨Extended.refl _, rfl⟩
    have hload : Triple (Ruling filter known)
        (enter job.engine job.os job.deadline dir : Enter σ φ Unit)
        (fun _ => Ruling filter fun d => known d ∨ filter.respectIgnore = true ∧ d = dir)
        fun _ => Ruling filter known := ruling_enter dir
    have hrules := hload ⟨s.world, s.scope⟩ hbefore
    rcases hrun : enter job.engine job.os job.deadline dir ⟨s.world, s.scope⟩ with ⟨code | ⟨⟩, e⟩
    · rw [hrun] at hrules hgrown
      rw [Work.entering, Exec.onPart_run, hrun]
      exact ⟨⟨hrules.filter_eq, hrules.loaded, fun d hd => hrules.known_isSome d ((hknown d).2 ⟨hd.1, .inl hd.2⟩)⟩,
        fun d hd => (h.reached d hd).mono hgrown.1.1.le, fun hit hh => (h.hits hit hh).mono hgrown.1.1.le⟩
    · rw [hrun] at hrules hgrown
      rw [Work.entering, Exec.onPart_run, hrun]
      refine ⟨⟨hrules.filter_eq, hrules.loaded, fun d hd => ?_⟩, fun d hd => ?_,
        fun hit hh => (h.hits hit hh).mono hgrown.1.le⟩
      · obtain ⟨hon, d', hd', habove⟩ := hd
        rcases List.mem_cons.1 hd' with rfl | hd'
        · by_cases heq : d = d'
          · exact hrules.known_isSome d (.inr ⟨hon, heq⟩)
          · exact hrules.known_isSome d (.inl ((hknown d).2 ⟨hon, .inr ⟨habove, heq⟩⟩))
        · exact hrules.known_isSome d (.inl ((hknown d).2 ⟨hon, .inl ⟨d', hd', habove⟩⟩))
      · rcases List.mem_cons.1 hd with rfl | hd
        · exact hreached.mono hgrown.1.le
        · exact (h.reached d hd).mono hgrown.1.le
  ended dir item _ h := h.note _
  named n h := h.note _
  named_name _ _ hname := slash_notMem_name hname
  visited h _ := h.result rfl
  named_visited h := h
  excluded h := h.result rfl
  failed h _ := h.result rfl
  tooDeep h := h.result rfl
  checked _ h _ _ := h.note _
  clear_checked {ds k s dir name directory} h hname hcandidate hallowed := by
    intro _
    rw [h.ruling.filter_eq] at hcandidate
    have hlog : s.world.log <+:
        (s.note (.checked (child dir name) directory s.scope.rules)).world.log :=
      List.prefix_append _ _
    refine ⟨h.allowed hname hallowed, hcandidate.shown, fun d hd hne => ?_, fun hon d hd => ?_⟩
    · rw [containing_child hname] at hd
      exact (h.reached dir List.mem_cons_self d hd hne).mono hlog
    · rw [containing_child hname] at hd
      exact h.ruling.known_isSome d ⟨hon, dir, List.mem_cons_self, hd⟩
  searched h _ _ _ := (h.note _).result rfl
  clear_searched h := h.mono (List.prefix_append _ _) rfl
  found {ds k s path bytes start stop} h hclear hpath _ _ _ _ _ _ _ _ := by
    have hpassed : Passed job.engine filter s.world.log
        (matchHit path (hex (job.engine.sha256 bytes)) bytes start stop).path := hclear.passed hpath
    have hpushed := h.push hpassed
    exact ⟨hpushed.ruling, hpushed.reached, hpushed.hits⟩
  clear_found _ h := h.mono (List.prefix_refl _) rfl
  read h hclear hpath _ _ _ _ _ _ _ := h.push (hclear.passed hpath)

end Walk

/-! ## §4 — the hits of a success. -/

theorem passing_start {job : Job σ φ} {scope : Scope} (hscope : scope.rules = fun _ => none)
    (w : World σ φ) (id : Str) : Passing job scope.toFilter []
      { world := w, scope, result := Success.empty id, usedBytes := 2048 } where
  ruling := by
    refine ⟨rfl, fun d compiled hd => ?_, fun d hd => ?_⟩
    · change scope.rules d = _ at hd
      rw [hscope] at hd
      cases hd
    · obtain ⟨-, dir, hdir, -⟩ := hd
      exact absurd hdir List.not_mem_nil
  reached _ h := absurd h List.not_mem_nil
  hits _ h := absurd h List.not_mem_nil

theorem Concluded.passed {job : Job σ φ} {filter : Filter} {walked sorted ended : State σ φ}
    {success : Success} {w : World σ φ} (h : Concluded job walked sorted ended success w)
    (hs : ∀ hit ∈ walked.result.hits, Passed job.engine filter walked.world.log hit.path) :
    ∀ hit ∈ success.hits, Passed job.engine filter w.log hit.path := by
  intro hit hh
  rw [h.hits] at hh
  exact (hs hit hh).mono h.le

/-- **Every hit of a success passed the scope of its request.** -/
theorem search_passed {engine : Engine} {os : Os σ φ} {root : φ} {r : Request} {w w' : World σ φ}
    {success : Success} (h : search engine os root r w = (.ok success, w')) :
    ∃ scope, Scope.new engine r.scope = .ok scope ∧
      ∀ hit ∈ success.hits, Passed engine scope.toFilter w'.log hit.path := by
  obtain ⟨matcher, scope, -, -, hscope, started, w₁, s', -, hrun, hw'⟩ := search_ok h
  generalize started + r.deadlineMs * 1000000 = deadline at hrun
  have hstart : Passing { engine, os, root, request := r, deadline, matcher } scope.toFilter []
      { world := w₁, scope, result := Success.empty r.id, usedBytes := 2048 } :=
    passing_start (new_observations hscope).2 w₁ r.id
  obtain ⟨walked, sorted, ended, hwalked, hconcluded⟩ :=
    conclude_ok (passing _ scope.toFilter) hstart (fun hne => absurd rfl hne) hrun
  rw [hw'] at hconcluded
  exact ⟨scope, hscope, hconcluded.passed hwalked.hits⟩

end JevGrep.Worker
