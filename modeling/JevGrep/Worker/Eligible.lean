/-
# `JevGrep.Worker.Eligible` — the hits of the eligible files, as far as the budgets reach.

`Node.eligible` says which files of a tree a request is about, in walk order, without a word on plans, limits
or stops. A plan searches these files; where the depth limit cuts it, the files in front of the cut are a start
of them (`Reaches`). So a search that ends for a budget has not come to the cut, and what it returns is the
longest start of the hits of all eligible files.

* §1 eligible files; §2 what a plan reaches; §3 `search`.
-/
import JevGrep.Worker.Agree
import JevGrep.Worker.Longest

namespace JevGrep.Worker

open JevGrep.Lib
open Exec (bind_of_ok bind_of_error Keeps)
open Prefix (Longest)

/-! ## §1 — eligible files. -/

section Eligible

variable (engine : Engine) (filter : Filter) (limit : Nat) (tree : Node)

/-- An object whose path is portable and not excluded, and passes the globs and the ignore rules. -/
def admitted (path : Str) (node : Node) : Bool :=
  validPath path && !filter.excludedPath path && inScope engine filter tree path (node.fileType == .directory)

mutual

/-- The eligible files at or below an object, in walk order: regular, text, no longer than the limit, and in
scope with every directory above. -/
def Node.eligible : Node → Str → List (Str × Bytes)
  | .file bytes, path => if bytes.length ≤ limit ∧ isText bytes = true then [(path, bytes)] else []
  | .dir entries, path => eligibleIn entries path
  | .other, _ => []

/-- Those of an entry of a directory. -/
def eligibleEntry : DirName × Node → Str → List (Str × Bytes)
  | (name, node), dir =>
      match Utf8.decode name.bytes with
      | some name =>
          if admitted engine filter tree (child dir name) node then Node.eligible node (child dir name) else []
      | none => []

/-- Those of all entries of a directory. -/
def eligibleIn : List (DirName × Node) → Str → List (Str × Bytes)
  | [], _ => []
  | entry :: rest, dir => eligibleEntry entry dir ++ eligibleIn rest dir

end

end Eligible

/-- The eligible files of a tree. -/
def eligibleFiles (engine : Engine) (scope : Scope) (r : Request) (tree : Node) : List (Str × Bytes) :=
  Node.eligible engine scope.toFilter r.maxFileBytes tree tree []

/-- What makes a file eligible, of the file alone. -/
structure Plain (limit : Nat) (file : Str × Bytes) : Prop where
  path : validPath file.1 = true
  length : file.2.length ≤ limit
  text : isText file.2 = true

section Plain

variable {engine : Engine} {filter : Filter} {limit : Nat} {tree : Node}

mutual

/-- Eligible files are plain; only a file needs a path to begin with. -/
theorem plain_of_eligible : ∀ (node : Node) (path : Str), (∀ bytes, node = .file bytes → validPath path = true) →
    ∀ file ∈ Node.eligible engine filter limit tree node path, Plain limit file
  | .file bytes, path, hpath, file, hmem => by
      rw [Node.eligible] at hmem
      split at hmem
      · rename_i hreadable
        obtain rfl := List.mem_singleton.1 hmem
        exact ⟨hpath bytes rfl, hreadable.1, hreadable.2⟩
      · exact absurd hmem List.not_mem_nil
  | .dir entries, path, _, file, hmem => by
      rw [Node.eligible] at hmem
      exact plain_of_eligibleIn entries path file hmem
  | .other, path, _, file, hmem => by
      rw [Node.eligible] at hmem
      exact absurd hmem List.not_mem_nil

theorem plain_of_eligibleEntry : ∀ (entry : DirName × Node) (dir : Str),
    ∀ file ∈ eligibleEntry engine filter limit tree entry dir, Plain limit file
  | (name, node), dir, file, hmem => by
      rw [eligibleEntry] at hmem
      split at hmem
      · rename_i text _
        split at hmem
        · rename_i hadmitted
          rw [admitted, Bool.and_eq_true, Bool.and_eq_true] at hadmitted
          exact plain_of_eligible node (child dir text) (fun _ _ => hadmitted.1.1) file hmem
        · exact absurd hmem List.not_mem_nil
      · exact absurd hmem List.not_mem_nil

theorem plain_of_eligibleIn : ∀ (entries : List (DirName × Node)) (dir : Str),
    ∀ file ∈ eligibleIn engine filter limit tree entries dir, Plain limit file
  | [], dir, file, hmem => by
      rw [eligibleIn] at hmem
      exact absurd hmem List.not_mem_nil
  | entry :: rest, dir, file, hmem => by
      rw [eligibleIn] at hmem
      rcases List.mem_append.1 hmem with hmem | hmem
      · exact plain_of_eligibleEntry entry dir file hmem
      · exact plain_of_eligibleIn rest dir file hmem

end

end Plain

/-- The ignore files of every directory at or below an object load. -/
inductive PoliciesLoad (engine : Engine) (tree : Node) : Str → Node → Prop where
  | file (path : Str) (bytes : Bytes) : PoliciesLoad engine tree path (.file bytes)
  | other (path : Str) : PoliciesLoad engine tree path .other
  | dir (path : Str) (entries : List (DirName × Node)) (gitignore : PolicyValid engine tree path GITIGNORE)
      (ignore : PolicyValid engine tree path IGNORE)
      (below : ∀ e ∈ entries, ∀ name, Utf8.decode e.1.bytes = some name → PoliciesLoad engine tree (child path name) e.2) :
      PoliciesLoad engine tree path (.dir entries)

/-- The hits of files, file by file. -/
def hitsIn (engine : Engine) (matcher : Bytes → List (Nat × Nat)) (files : List (Str × Bytes)) : List Hit :=
  files.flatMap fun file => fileHits engine matcher file.1 file.2

/-- The hits of the eligible files of a tree. -/
def eligibleHits (engine : Engine) (matcher : Bytes → List (Nat × Nat)) (scope : Scope) (r : Request)
    (tree : Node) : List Hit :=
  hitsIn engine matcher (eligibleFiles engine scope r tree)

theorem tallyOf_hitsIn (engine : Engine) (matcher : Bytes → List (Nat × Nat)) : ∀ steps : List Step,
    (tallyOf engine matcher steps).hits = hitsIn engine matcher (filesOf steps)
  | [] => rfl
  | step :: steps => by
      have hstep : (step.tally engine matcher).hits = hitsIn engine matcher step.files := by
        cases step with
        | file path bytes => exact (List.append_nil _).symm
        | _ => rfl
      show (step.tally engine matcher).hits ++ (tallyOf engine matcher steps).hits = _
      rw [tallyOf_hitsIn engine matcher steps, hstep]
      exact List.flatMap_append.symm

/-! ## §2 — what a plan reaches. -/

/-- Steps search the files; where the depth limit cuts them, they search a start of the files in front. -/
structure Reaches (steps : List Step) (files : List (Str × Bytes)) : Prop where
  among : ∀ file ∈ filesOf steps, file ∈ files
  order : (.tooDeep ∉ steps ∧ filesOf steps = files) ∨
    ∃ pre post, steps = pre ++ .tooDeep :: post ∧ filesOf pre <+: files

namespace Reaches

theorem append {a b : List Step} {f g : List (Str × Bytes)} (ha : Reaches a f) (hb : Reaches b g) :
    Reaches (a ++ b) (f ++ g) := by
  have hfiles : ∀ a b, filesOf (a ++ b) = filesOf a ++ filesOf b := fun _ _ => List.flatMap_append
  constructor
  · intro file hmem
    rw [hfiles] at hmem
    exact List.mem_append.2 ((List.mem_append.1 hmem).imp (ha.among file) (hb.among file))
  · rcases ha.order with ⟨hdeep, hsame⟩ | ⟨pre, post, rfl, hstart⟩
    · rcases hb.order with ⟨hdeep', hsame'⟩ | ⟨pre, post, rfl, hstart⟩
      · refine .inl ⟨fun hmem => (List.mem_append.1 hmem).elim hdeep hdeep', ?_⟩
        rw [hfiles, hsame, hsame']
      · refine .inr ⟨a ++ pre, post, by rw [List.append_assoc], ?_⟩
        rw [hfiles, hsame]
        exact (List.prefix_append_right_inj f).2 hstart
    · refine .inr ⟨pre, post ++ b, by rw [List.append_assoc]; rfl, ?_⟩
      exact hstart.trans (List.prefix_append f g)

/-- Steps without a file, above the depth limit. -/
theorem none {steps : List Step} (hfiles : filesOf steps = []) (hdeep : .tooDeep ∉ steps) : Reaches steps [] where
  among file h := by rw [hfiles] at h; exact h
  order := .inl ⟨hdeep, hfiles⟩

theorem file (path : Str) (bytes : Bytes) : Reaches [.file path bytes] [(path, bytes)] where
  among _ h := h
  order := .inl ⟨by simp, rfl⟩

/-- Nothing is reached below the depth limit. -/
theorem cut (files : List (Str × Bytes)) : Reaches [.tooDeep] files where
  among _ h := absurd h List.not_mem_nil
  order := .inr ⟨[], [], rfl, List.nil_prefix⟩

end Reaches

section Plan

variable {engine : Engine} {filter : Filter} {r : Request} {tree : Node}

theorem enterSteps_reaches (dir : Str) : Reaches (enterSteps engine filter tree dir) [] := by
  unfold enterSteps
  split
  · split
    · exact Reaches.none rfl (by simp)
    · exact Reaches.none rfl (by simp)
  · exact Reaches.none rfl List.not_mem_nil

theorem fileSteps_reaches (hread : r.read = none) (path : Str) (bytes : Bytes) :
    Reaches (fileSteps r path (.file bytes))
      (Node.eligible engine filter r.maxFileBytes tree (.file bytes) path) := by
  have hsearched : ¬r.read.any (·.path ≠ path) = true := by simp [hread]
  unfold fileSteps
  rw [if_neg hsearched, Node.eligible, Node.readable]
  by_cases htext : bytes.length ≤ r.maxFileBytes ∧ isText bytes = true
  · rw [if_pos htext, if_pos htext]
    exact Reaches.file path bytes
  · rw [if_neg htext, if_neg htext]
    exact Reaches.none rfl (by simp)

theorem nodeSteps_reaches (hread : r.read = none) {below : Node → Str → List Step}
    (hbelow : ∀ entries dir, Reaches (below (.dir entries) dir)
      (eligibleIn engine filter r.maxFileBytes tree entries dir)) (path : Str) (node : Node) :
    Reaches (nodeSteps engine filter r tree below path node)
      (if inScope engine filter tree path (node.fileType == .directory) then
        Node.eligible engine filter r.maxFileBytes tree node path else []) := by
  have hexcluded : Reaches [.excluded] [] := Reaches.none rfl (by simp)
  unfold nodeSteps
  split
  · cases node with
    | file bytes => exact fileSteps_reaches hread path bytes
    | dir entries => exact hbelow entries path
    | other => exact hexcluded
  · exact hexcluded

/-- The steps of an entry reach its eligible files, if the steps below do. -/
theorem entrySteps_reaches (hread : r.read = none) {below : Node → Str → List Step}
    (hbelow : ∀ entries dir, Reaches (below (.dir entries) dir)
      (eligibleIn engine filter r.maxFileBytes tree entries dir)) (dir : Str) :
    ∀ entry, Reaches (entrySteps engine filter r tree below dir entry)
      (eligibleEntry engine filter r.maxFileBytes tree entry dir) := by
  rintro ⟨name, node⟩
  have hexcluded : Reaches [.excluded] [] := Reaches.none rfl (by simp)
  have hvisited : Reaches [.visited] [] := Reaches.none rfl (by simp)
  have hname : Reaches (nameSteps engine filter r tree below dir (name, node))
      (eligibleEntry engine filter r.maxFileBytes tree (name, node) dir) := by
    unfold nameSteps
    rw [eligibleEntry]
    cases Utf8.decode name.bytes with
    | none => exact hexcluded
    | some text =>
      show Reaches (if !validPath (child dir text) || filter.excludedPath (child dir text) then [.excluded]
        else if aside r (child dir text) then []
        else nodeSteps engine filter r tree below (child dir text) node)
        (if admitted engine filter tree (child dir text) node then
          Node.eligible engine filter r.maxFileBytes tree node (child dir text) else [])
      have hbad : (!validPath (child dir text) || filter.excludedPath (child dir text))
          = !(validPath (child dir text) && !filter.excludedPath (child dir text)) := by
        rw [Bool.not_and, Bool.not_not]
      rw [aside_search hread, if_neg Bool.false_ne_true, hbad, admitted]
      cases validPath (child dir text) && !filter.excludedPath (child dir text) with
      | true => exact nodeSteps_reaches hread hbelow (child dir text) node
      | false => exact hexcluded
  exact hvisited.append hname

theorem entries_reach (hread : r.read = none) {below : Node → Str → List Step}
    (hbelow : ∀ entries dir, Reaches (below (.dir entries) dir)
      (eligibleIn engine filter r.maxFileBytes tree entries dir)) (dir : Str) :
    ∀ entries, Reaches (entries.flatMap (entrySteps engine filter r tree below dir))
      (eligibleIn engine filter r.maxFileBytes tree entries dir)
  | [] => Reaches.none rfl List.not_mem_nil
  | entry :: rest => (entrySteps_reaches hread hbelow dir entry).append (entries_reach hread hbelow dir rest)

/-- A plan reaches the eligible files. -/
theorem plan_reaches (hread : r.read = none) : ∀ (levels : Nat) (entries : List (DirName × Node)) (dir : Str),
    Reaches (plan engine filter r tree levels (.dir entries) dir)
      (eligibleIn engine filter r.maxFileBytes tree entries dir)
  | 0, entries, dir => Reaches.cut _
  | levels + 1, entries, dir => by
      have hentries := entries_reach hread (plan_reaches hread levels) dir entries
      rw [plan_dir]
      exact (enterSteps_reaches dir).append hentries

/-- Where a search is whole, its plan is not cut and searches the eligible files. -/
theorem filesOf_of_whole {matcher : Bytes → List (Nat × Nat)} {scope : Scope} {listed : List (DirName × Node)}
    (hread : r.read = none) (hscan : r.validateScopeOnly = false)
    (hwhole : Whole engine matcher scope.toFilter r (.dir listed)) :
    filesOf (planOf engine scope r (.dir listed)) = eligibleFiles engine scope r (.dir listed) := by
  have hscheduled : scheduled engine scope.toFilter r (.dir listed) = planOf engine scope r (.dir listed) :=
    scheduled_eq hscan
  have hreach : Reaches (planOf engine scope r (.dir listed)) (eligibleFiles engine scope r (.dir listed)) :=
    plan_reaches hread (r.maxDepth + 1) listed []
  rcases hreach.order with ⟨-, hsame⟩ | ⟨pre, post, hcut, -⟩
  · exact hsame
  · have hmem : .tooDeep ∈ scheduled engine scope.toFilter r (.dir listed) := by
      rw [hscheduled, hcut]
      exact List.mem_append_right _ List.mem_cons_self
    exact absurd (hwhole.clean _ hmem) not_false

/-- Where the ignore files load, no step of a plan fails. -/
theorem unbroken : ∀ (levels : Nat) {node : Node} {dir : Str},
    (filter.respectIgnore = true → PoliciesLoad engine tree dir node) →
    .broken ∉ plan engine filter r tree levels node dir
  | 0, _, _, _ => by simp [plan]
  | levels + 1, .file _, _, _ => List.not_mem_nil
  | levels + 1, .other, _, _ => List.not_mem_nil
  | levels + 1, .dir entries, dir, hloads => by
      intro hmem
      rw [plan_dir] at hmem
      rcases List.mem_append.1 hmem with henter | hentry
      · unfold enterSteps at henter
        split at henter
        case isTrue hon =>
          cases hloads hon with
          | dir _ _ gitignore ignore _ =>
            rw [if_pos ⟨gitignore, ignore⟩] at henter
            cases List.mem_singleton.1 henter
        case isFalse => exact List.not_mem_nil henter
      · obtain ⟨entry, hin, hstep⟩ := List.mem_flatMap.1 hentry
        rcases List.mem_cons.1 hstep with hvisited | hstep
        · cases hvisited
        rcases nameSteps_cases entry with hnone | ⟨name, bytes, -, -, -, hone⟩ | ⟨name, hname, -, hwalk⟩
        · rcases List.mem_pair.1 hnone with hnone | hnone <;> rw [hnone] at hstep <;> simp at hstep
        · rw [hone] at hstep
          cases List.mem_singleton.1 hstep
        · rw [hwalk] at hstep
          have hbelow : filter.respectIgnore = true → PoliciesLoad engine tree (child dir name) entry.2 := by
            intro hon
            cases hloads hon with
            | dir _ _ _ _ below => exact below entry hin name hname
          exact unbroken levels hbelow hstep

/-- A plan is sound where ignore files load and the matches in eligible files are well cut. -/
theorem plan_sound {matcher : Bytes → List (Nat × Nat)} (hread : r.read = none) {levels : Nat}
    {entries : List (DirName × Node)} {dir : Str}
    (hloads : filter.respectIgnore = true → PoliciesLoad engine tree dir (.dir entries))
    (hcut : ∀ file ∈ eligibleIn engine filter r.maxFileBytes tree entries dir,
      file.2.isEmpty = false → CutWell file.2 (matcher file.2)) :
    ∀ step ∈ plan engine filter r tree levels (.dir entries) dir, step.Sound matcher := by
  intro step hmem
  cases step with
  | broken => exact unbroken levels hloads hmem
  | file path bytes =>
    exact hcut (path, bytes) ((plan_reaches hread levels entries dir).among _ (mem_filesOf.2 hmem))
  | _ => trivial

end Plan

/-! ## §3 — `search`. -/

section Search

variable {engine : Engine} {matcher : Bytes → List (Nat × Nat)} {r : Request}

/-- What is filled short of the hits there are is filled whatever hits follow. -/
theorem Filled.more {all all' : List Hit} {s : Success} (h : Filled r all s) (hne : s.hits ≠ all)
    (hmore : all <+: all') : Filled r all' s where
  longest := h.longest.more (fits_closed r) hne hmore
  whole heq := by
    have hall : all' <+: all := heq ▸ h.longest.start
    exact absurd (heq.trans (hall.eq_of_length_le hmore.length_le)) hne
  cut _ := h.cut hne

theorem mem_issue (code : Code) (result : Success) : code ∈ (result.issue code).reasons := by
  show _ ∈ if code ∈ result.reasons then result.reasons else result.reasons ++ [code]
  split
  · assumption
  · exact List.mem_append_right _ List.mem_cons_self

theorem mem_issue_of_mem {code : Code} {result : Success} (h : code ∈ result.reasons) (code' : Code) :
    code ∈ (result.issue code').reasons := by
  show _ ∈ if code' ∈ result.reasons then result.reasons else result.reasons ++ [code']
  split
  · exact h
  · exact List.mem_append_left _ h

/-- Nothing takes the depth limit back. -/
theorem keeps_depthLimit (steps : List Step) :
    Keeps (fun l => .depthLimit ∈ l.result.reasons) (Ledger.performAll engine matcher r steps) :=
  Ledger.keeps_performAll fun step _ =>
    Ledger.keeps_issued (K := fun _ reasons => .depthLimit ∈ reasons) (fun _ h => mem_issue_of_mem h _) step

/-- A traversal without the depth limit among its reasons ended in front of the first cut. -/
theorem traverse_uncut (hscan : r.validateScopeOnly = false) {pre post : List Step} {l l' : Ledger}
    (h : Ledger.traverse engine matcher r (pre ++ .tooDeep :: post) l = (.ok (), l'))
    (hdepth : .depthLimit ∉ l'.result.reasons) :
    Ledger.traverse engine matcher r pre l = (.ok (), l') ∧ l'.result.reasons ≠ [] := by
  rw [traverse_run hscan, Ledger.performAll_append] at h
  rw [traverse_run hscan]
  rcases hpre : Ledger.performAll engine matcher r pre l with ⟨stop | ⟨⟩, l₁⟩
  · rw [bind_of_error hpre] at h
    obtain ⟨code, rfl⟩ := sorted_ok h
    exact ⟨h, List.ne_nil_of_mem (mem_issue code l₁.result)⟩
  · -- the cut is met, and named in the end
    let cut : Ledger := { l₁ with result := l₁.result.issue .depthLimit }
    have hrun : Ledger.performAll engine matcher r (.tooDeep :: post) l₁
        = Ledger.performAll engine matcher r post cut := rfl
    have hkeeps : Keeps (fun l => .depthLimit ∈ l.result.reasons) (Ledger.performAll engine matcher r post) :=
      keeps_depthLimit post
    have hmet := hkeeps cut (mem_issue .depthLimit l₁.result)
    rw [bind_of_ok hpre, hrun] at h
    rcases hrest : Ledger.performAll engine matcher r post cut with ⟨stop | ⟨⟩, l₂⟩ <;> rw [hrest] at h hmet
    · obtain ⟨code, rfl⟩ := sorted_ok h
      exact absurd (mem_issue_of_mem hmet code) hdepth
    · obtain ⟨-, rfl⟩ := Prod.mk.inj h
      exact absurd hmet hdepth

/-- A traversal that names neither the entry nor the depth limit keeps the longest start of the hits of its
files. -/
theorem traverse_files (hread : r.read = none) (hscan : r.validateScopeOnly = false)
    (hvalid : validate r = .ok ()) {steps : List Step} (hsound : ∀ step ∈ steps, step.Sound matcher) {l : Ledger}
    (h : Ledger.traverse engine matcher r steps (Ledger.start r) = (.ok (), l))
    (hentry : .entryLimit ∉ l.result.reasons) (hdepth : .depthLimit ∉ l.result.reasons) :
    Filled r (hitsIn engine matcher (filesOf steps)) l.result := by
  have hrun : ∃ l', Ledger.traverse engine matcher r steps (Ledger.start r) = (.ok (), l') ∧ _ :=
    traverse_filled hread hscan hvalid hsound
  obtain ⟨l', h', hfilled⟩ := hrun
  obtain ⟨-, rfl⟩ := Prod.mk.inj (h.symm.trans h')
  rw [← tallyOf_hitsIn]
  exact hfilled hentry hdepth

/-- The same of the files that its steps reach. -/
theorem traverse_reached (hread : r.read = none) (hscan : r.validateScopeOnly = false)
    (hvalid : validate r = .ok ()) {steps : List Step} {files : List (Str × Bytes)} (hreach : Reaches steps files)
    (hsound : ∀ step ∈ steps, step.Sound matcher) {l : Ledger}
    (h : Ledger.traverse engine matcher r steps (Ledger.start r) = (.ok (), l))
    (hentry : .entryLimit ∉ l.result.reasons) (hdepth : .depthLimit ∉ l.result.reasons) :
    Filled r (hitsIn engine matcher files) l.result := by
  rcases hreach.order with ⟨-, rfl⟩ | ⟨pre, post, rfl, hstart⟩
  · exact traverse_files hread hscan hvalid hsound h hentry hdepth
  · -- the traversal ended in front of the cut, short of the hits there
    obtain ⟨huncut, hreasons⟩ := traverse_uncut hscan h hdepth
    have hpre : ∀ step ∈ pre, step.Sound matcher := fun step hmem => hsound step (List.mem_append_left _ hmem)
    have hfill := traverse_files hread hscan hvalid hpre huncut hentry hdepth
    refine hfill.more (fun hall => hreasons (hfill.whole hall)) ?_
    obtain ⟨rest, hrest⟩ := hstart
    rw [← hrest]
    exact ⟨hitsIn engine matcher rest, List.flatMap_append.symm⟩

end Search

/-- **Exact search returns the longest start of the hits that its budgets allow.** On a system that shows a tree
whose ignore files load, with a deadline that does not pass and a matcher whose matches in eligible files are
well cut, a search without a read succeeds. If it names neither the entry limit (the limits on ignore files are
entry limits too) nor the depth limit, its hits are the longest start of the hits of all eligible files, at
whatever depth, with `max_matches` hits at most that fit into `response_bytes` next to the 2048 bytes reserved;
it has no reason and is complete exactly if that is all of them, and otherwise its one reason is the budget that
was short. -/
theorem search_eligible {σ φ : Type} (engine : Engine) {os : Os σ φ} {root : φ}
    {listed : List (DirName × Node)} (st : Static os (.dir listed) root)
    (hdistinct : Node.Distinct (.dir listed)) (r : Request) (hread : r.read = none)
    (hscan : r.validateScopeOnly = false) (hvalid : validate r = .ok ())
    {matcher : Bytes → List (Nat × Nat)} (hmatcher : engine.matcher r.pattern r.kind r.caseSensitive = some matcher)
    {scope : Scope} (hscope : Scope.new engine r.scope = .ok scope)
    (hloads : scope.respectIgnore = true → PoliciesLoad engine (.dir listed) [] (.dir listed))
    (hcut : ∀ file ∈ eligibleFiles engine scope r (.dir listed),
      file.2.isEmpty = false → CutWell file.2 (matcher file.2)) (w : World σ φ)
    (htime : ∀ s, (os.now s).1 < (os.now w.os).1 + r.deadlineMs * 1000000) :
    ∃ success, (search engine os root r w).1 = .ok success ∧
      (.entryLimit ∉ success.reasons → .depthLimit ∉ success.reasons →
        Longest (Fits r) (eligibleHits engine matcher scope r (.dir listed)) success.hits ∧
        (success.reasons = [] ↔ success.hits = eligibleHits engine matcher scope r (.dir listed)) ∧
        (success.coverage = .complete ↔ success.hits = eligibleHits engine matcher scope r (.dir listed)) ∧
        (success.hits ≠ eligibleHits engine matcher scope r (.dir listed) →
          success.reasons = [if success.hits.length = r.maxMatches then .limitReached else .byteLimit])) := by
  have hsound : ∀ step ∈ planOf engine scope r (.dir listed), step.Sound matcher := plan_sound hread hloads hcut
  have hreach : Reaches (planOf engine scope r (.dir listed)) (eligibleFiles engine scope r (.dir listed)) :=
    plan_reaches hread (r.maxDepth + 1) listed []
  obtain ⟨l, htraverse, -⟩ := traverse_filled hread hscan hvalid hsound
  obtain ⟨success, w', hrun, hhits, hreasons⟩ :=
    search_of_traverse st hdistinct hread hvalid hmatcher hscope htime htraverse
  obtain ⟨_, _, -, hpromised⟩ := search_promised hrun
  refine ⟨success, congrArg Prod.fst hrun, fun hentry hdepth => ?_⟩
  rw [hreasons] at hentry hdepth
  have hfill := traverse_reached hread hscan hvalid hreach hsound htraverse hentry hdepth
  have hnone : success.reasons = [] ↔ success.hits = eligibleHits engine matcher scope r (.dir listed) := by
    rw [hhits, hreasons]
    refine ⟨fun hnil => ?_, hfill.whole⟩
    by_contra hne
    rw [hfill.cut hne] at hnil
    cases hnil
  refine ⟨hhits ▸ hfill.longest, hnone, hpromised.reasoned.coverage.trans hnone, ?_⟩
  rw [hhits, hreasons]
  exact hfill.cut

/-- A directory with one entry. -/
abbrev Node.single (name : DirName) (node : Node) : Node := .dir [(name, node)]

theorem distinct_single {name : DirName} {node : Node} (hdots : isDots name = false) (h : node.Distinct) :
    (Node.single name node).Distinct := by
  refine .dir _ (List.nodup_singleton _) (fun e he => ?_) fun e he => ?_
  · obtain rfl := List.mem_singleton.1 he
    exact hdots
  · obtain rfl := List.mem_singleton.1 he
    exact h

/-- A tree with files at three depths. -/
def deepTree : List (DirName × Node) :=
  [(.ofStr ['a'] slash_not_mem_a, .single (.ofStr ['b'] slash_not_mem_b) (.file (Utf8.encode "aa\n".toList))),
    (.ofStr ['b'] slash_not_mem_b, .file (Utf8.encode "xa\n".toList)),
    (.ofStr ['x'] slash_not_mem_x, .single (.ofStr ['a'] slash_not_mem_a)
      (.single (.ofStr ['x'] slash_not_mem_x) (.file (Utf8.encode "a\n".toList))))]

/-- A literal search with room for two hits, that does not go down to the third depth. -/
def Request.shallow : Request := { Request.literal ['a'] with maxMatches := 2, maxDepth := 1 }

theorem distinct_deepTree : Node.Distinct (.dir deepTree) := by
  refine .dir _ (by decide) (by decide) ?_
  refine List.forall_mem_cons.2 ⟨distinct_single (by decide) (.file _), ?_⟩
  refine List.forall_mem_cons.2 ⟨.file _, ?_⟩
  refine List.forall_mem_cons.2 ⟨distinct_single (by decide) (distinct_single (by decide) (.file _)), ?_⟩
  exact List.forall_mem_nil _

theorem PoliciesLoad.named {engine : Engine} {tree node : Node} {path name : Str} {entry : DirName}
    (hname : Utf8.decode entry.bytes = some name) (h : PoliciesLoad engine tree (child path name) node) :
    ∀ text, Utf8.decode entry.bytes = some text → PoliciesLoad engine tree (child path text) node := by
  intro text htext
  obtain rfl := Option.some.inj (hname.symm.trans htext)
  exact h

theorem policiesLoad_single {engine : Engine} {tree node : Node} {path name : Str} {entry : DirName}
    (gitignore : PolicyValid engine tree path GITIGNORE) (ignore : PolicyValid engine tree path IGNORE)
    (hname : Utf8.decode entry.bytes = some name) (h : PoliciesLoad engine tree (child path name) node) :
    PoliciesLoad engine tree path (.single entry node) := by
  refine .dir path _ gitignore ignore fun e he => ?_
  obtain rfl := List.mem_singleton.1 he
  exact h.named hname

theorem policiesLoad_deepTree : PoliciesLoad Engine.plain (.dir deepTree) [] (.dir deepTree) := by
  have ha : Utf8.decode (DirName.ofStr ['a'] slash_not_mem_a).bytes = some ['a'] := by decide
  have hb : Utf8.decode (DirName.ofStr ['b'] slash_not_mem_b).bytes = some ['b'] := by decide
  have hx : Utf8.decode (DirName.ofStr ['x'] slash_not_mem_x).bytes = some ['x'] := by decide
  refine .dir [] _ (by decide) (by decide) ?_
  refine List.forall_mem_cons.2 ⟨PoliciesLoad.named ha ?_, ?_⟩
  · exact policiesLoad_single (by decide) (by decide) hb (.file _ _)
  refine List.forall_mem_cons.2 ⟨PoliciesLoad.named hb (.file _ _), ?_⟩
  refine List.forall_mem_cons.2 ⟨PoliciesLoad.named hx ?_, List.forall_mem_nil _⟩
  refine policiesLoad_single (by decide) (by decide) ha ?_
  exact policiesLoad_single (by decide) (by decide) hx (.file _ _)

/-- A search that finds its two hits in the first file, and does not come to the directory that is too deep. -/
theorem search_eligible_deepTree : ∃ success,
    (search Engine.plain (Node.os (.dir deepTree)) (.dir deepTree) .shallow ⟨0, []⟩).1 = .ok success ∧
      Longest (Fits .shallow) (eligibleHits Engine.plain (literalMatches (Utf8.encode ['a']) 0 0)
        oneFileStart.scope .shallow (.dir deepTree)) success.hits ∧
      success.reasons = [.limitReached] ∧ success.hits.length = 2 ∧
      (eligibleHits Engine.plain (literalMatches (Utf8.encode ['a']) 0 0)
        oneFileStart.scope .shallow (.dir deepTree)).length = 4 := by
  have hfound : (search Engine.plain (Node.os (.dir deepTree)) (.dir deepTree) .shallow ⟨0, []⟩).1.toOption.map
      (fun s => (s.reasons, s.hits.length)) = some ([.limitReached], 2) ∧
      (eligibleHits Engine.plain (literalMatches (Utf8.encode ['a']) 0 0)
        oneFileStart.scope .shallow (.dir deepTree)).length = 4 := by decide +kernel
  obtain ⟨success, hrun, h⟩ := search_eligible Engine.plain (Node.static (.dir deepTree)) distinct_deepTree .shallow
    rfl rfl rfl (show Engine.plain.matcher ['a'] .literal true = some (literalMatches (Utf8.encode ['a']) 0 0) from rfl)
    (show Scope.new Engine.plain { respectIgnore := true } = .ok oneFileStart.scope from rfl)
    (fun _ => policiesLoad_deepTree) (by decide +kernel) ⟨0, []⟩ fun _ => Nat.zero_lt_succ _
  obtain ⟨hfound, hall⟩ := hfound
  rw [hrun] at hfound
  obtain ⟨hreasons, hlength⟩ := Prod.mk.inj (Option.some.inj hfound)
  have hentry : Code.entryLimit ∉ success.reasons := by
    rw [hreasons]
    decide
  have hdepth : Code.depthLimit ∉ success.reasons := by
    rw [hreasons]
    decide
  exact ⟨success, hrun, (h hentry hdepth).1, hreasons, hlength, hall⟩

/-- A request that only has its scope checked. -/
def Request.scopeOnly : Request := { Request.literal ['a'] with validateScopeOnly := true }

/-- The hits that such a search of `twoNames` leaves out. -/
def scopeOnlyHits : List Hit :=
  eligibleHits Engine.plain (literalMatches (Utf8.encode ['a']) 0 0) oneFileStart.scope .scopeOnly (.dir twoNames)

/-- A valid request that only has its scope checked is answered complete, without the hits that would all fit. -/
theorem scopeOnly_noHits : validate .scopeOnly = .ok () ∧ Request.scopeOnly.read = none ∧
    Node.Distinct (.dir twoNames) ∧ PoliciesLoad Engine.plain (.dir twoNames) [] (.dir twoNames) ∧
    (∀ file ∈ eligibleFiles Engine.plain oneFileStart.scope .scopeOnly (.dir twoNames), file.2.isEmpty = false →
      CutWell file.2 (literalMatches (Utf8.encode ['a']) 0 0 file.2)) ∧
    ∃ success, (search Engine.plain (Node.os (.dir twoNames)) (.dir twoNames) .scopeOnly ⟨0, []⟩).1 = .ok success ∧
      success.reasons = [] ∧ success.coverage = .complete ∧ success.hits ≠ scopeOnlyHits ∧
      ¬Longest (Fits .scopeOnly) scopeOnlyHits success.hits := by
  have hfound : (search Engine.plain (Node.os (.dir twoNames)) (.dir twoNames) .scopeOnly ⟨0, []⟩).1.toOption.map
      (fun s => (s.reasons, s.coverage, s.hits)) = some ([], .complete, []) := by decide +kernel
  have hall : scopeOnlyHits.length = 3 ∧ 2048 + chargeOf scopeOnlyHits ≤ 4096 := by decide +kernel
  have hloads : PoliciesLoad Engine.plain (.dir twoNames) [] (.dir twoNames) := by
    refine .dir [] _ (by decide) (by decide) fun e he text htext => ?_
    rcases List.mem_pair.1 he with rfl | rfl <;> exact .file _ _
  refine ⟨rfl, rfl, distinct_twoNames, hloads, by decide +kernel, ?_⟩
  rcases hrun : (search Engine.plain (Node.os (.dir twoNames)) (.dir twoNames) .scopeOnly ⟨0, []⟩).1
    with code | success <;> rw [hrun] at hfound
  · cases hfound
  · obtain ⟨hreasons, hrest⟩ := Prod.mk.inj (Option.some.inj hfound)
    obtain ⟨hcomplete, hnone⟩ := Prod.mk.inj hrest
    obtain ⟨hlength, hcharge⟩ := hall
    have hne : success.hits ≠ scopeOnlyHits := by
      intro heq
      rw [← heq, hnone] at hlength
      cases hlength
    refine ⟨success, rfl, hreasons, hcomplete, hne, fun hlongest => ?_⟩
    have hfits : Fits .scopeOnly scopeOnlyHits := ⟨by rw [hlength]; decide, hcharge⟩
    have hle := (hlongest.longest List.prefix_rfl hfits).length_le
    rw [hlength, hnone] at hle
    exact absurd hle (by decide)

end JevGrep.Worker
