/-
# `JevGrep.Worker.Agree` — a read agrees with a complete search.

The plan of a read is a part of the plan of a search in the same scope: entries that do not lead to the path
are left out, and of the files only the one at the path stays (`plan_sublist`, `mem_plan_read`). So a search
that is complete tells what each read in its scope comes to: `read_agrees`, and `hit_verified` for a hit.

* §1 paths; §2 the plan of a read; §3 the ledger of a read; §4 `search`.
-/
import Mathlib.Data.List.Flatten
import JevGrep.Worker.Excerpt
import JevGrep.Worker.Read
import JevGrep.Worker.Totals

namespace JevGrep.Worker

open JevGrep.Lib
open Exec (bind_of_ok bind_of_error)

/-! ## §1 — paths. -/

theorem parentOf_slash {path : Str} (h : parentOf path ≠ []) : parentOf path ++ ['/'] <+: path := by
  have hsplit : path.reverse.takeWhile (· ≠ '/') ++ path.reverse.dropWhile (· ≠ '/') = path.reverse :=
    List.takeWhile_append_dropWhile
  unfold parentOf at h ⊢
  rcases hdrop : path.reverse.dropWhile (· ≠ '/') with _ | ⟨c, rest⟩
  · rw [hdrop] at h
    exact absurd rfl h
  · -- the first character that is dropped is the slash
    have hslash : c = '/' := by
      have hc := List.head?_dropWhile_not (fun c => decide (c ≠ '/')) path.reverse
      rw [hdrop] at hc
      simpa using hc
    rw [hdrop, hslash] at hsplit
    refine ⟨(path.reverse.takeWhile (· ≠ '/')).reverse, ?_⟩
    have hpath := congrArg List.reverse hsplit
    rw [List.reverse_append, List.reverse_cons, List.reverse_reverse] at hpath
    exact hpath

/-- A directory that a path lies in starts the path, up to a slash. -/
theorem slash_of_mem_containing {dir path : Str} (hdir : dir ≠ []) (h : dir ∈ containing path) :
    dir ++ ['/'] <+: path := by
  induction path using above_induction with
  | root =>
    have hmem : dir ∈ above [] := h
    rw [above_nil] at hmem
    exact absurd (List.mem_singleton.1 hmem) hdir
  | step path hne ih =>
    by_cases hparent : parentOf path = []
    · rw [containing, hparent, above_nil] at h
      exact absurd (List.mem_singleton.1 h) hdir
    · have hslash := parentOf_slash hparent
      rw [containing, above_of_ne hparent] at h
      rcases List.mem_cons.1 h with rfl | h
      · exact hslash
      · exact (ih h).trans ((List.prefix_append _ _).trans hslash)

/-! ## §2 — the plan of a read. -/

/-- A read in the scope of a search, within its limits on entries, depth and files. -/
structure ReadLike (r r' : Request) (read : ReadRequest) : Prop where
  search : r.read = none
  read : r'.read = some read
  scope : r'.scope = r.scope
  maxFileBytes : r'.maxFileBytes = r.maxFileBytes
  maxDepth : r'.maxDepth = r.maxDepth
  maxEntries : r.maxEntries ≤ r'.maxEntries
  scanned : r.validateScopeOnly = false
  scanned' : r'.validateScopeOnly = false

section Plan

variable {engine : Engine} {filter : Filter} {r r' : Request} {read : ReadRequest} {tree : Node}

/-- The plan of a read leaves steps of the search out, and adds none. -/
theorem plan_sublist (h : ReadLike r r' read) : ∀ (levels : Nat) (node : Node) (dir : Str),
    (plan engine filter r' tree levels node dir).Sublist (plan engine filter r tree levels node dir)
  | 0, _, _ => List.Sublist.refl _
  | levels + 1, .file _, _ => List.Sublist.refl _
  | levels + 1, .other, _ => List.Sublist.refl _
  | levels + 1, .dir entries, dir => by
      rw [plan_dir, plan_dir]
      refine List.Sublist.append (List.Sublist.refl _) (List.Sublist.flatMap_right entries fun entry _ => ?_)
      refine List.Sublist.cons_cons _ ?_
      unfold nameSteps
      split
      · exact List.Sublist.refl _
      split
      · exact List.Sublist.refl _
      have haside : ∀ path, aside r path = false := fun path => by rw [aside, h.search]; rfl
      rw [haside, if_neg Bool.false_ne_true]
      split
      · exact List.nil_sublist _
      unfold nodeSteps
      split
      case isFalse => exact List.Sublist.refl _
      case isTrue =>
        split
        · exact plan_sublist h levels _ _
        · unfold fileSteps
          rw [h.search, h.maxFileBytes]
          split
          · exact List.nil_sublist _
          · exact List.Sublist.refl _
        · exact List.Sublist.refl _

/-- A read opens the file at its path alone. -/
theorem path_of_mem_plan (hread : r.read = some read) (levels : Nat) (node : Node) (dir : Str) :
    ∀ step ∈ plan engine filter r tree levels node dir, ∀ path bytes, step = .file path bytes → path = read.path := by
  refine plan_forall ?_ ?_ ?_ ?_ ?_ levels node dir
  · intro path bytes h
    cases h
  · intro path bytes h
    cases h
  · intro path bytes h
    cases h
  · intro path bytes hfile path' bytes' h
    rw [hread] at hfile
    obtain ⟨rfl, rfl⟩ := Step.file.inj h
    exact (by simpa using hfile : read.path = path).symm
  · intro dir step hstep path bytes h
    subst h
    unfold enterSteps at hstep
    split at hstep
    · split at hstep <;> cases List.mem_singleton.1 hstep
    · exact absurd hstep List.not_mem_nil

theorem aside_search (h : r.read = none) (path : Str) : aside r path = false := by
  rw [aside, h]
  rfl

/-- What leads to the path of a read is not set aside. -/
theorem aside_above (h : r.read = some read) {path : Str} (hne : path ≠ []) (habove : path ∈ above read.path) :
    aside r path = false := by
  rw [aside, h]
  show (path ≠ read.path && !(path ++ ['/']).isPrefixOf read.path) = false
  by_cases heq : path = read.path
  · simp [heq]
  · have hcontaining : path ∈ containing read.path := by
      by_cases hempty : read.path = []
      · rw [hempty, above_nil] at habove
        exact absurd (List.mem_singleton.1 habove) hne
      · rw [above_of_ne hempty] at habove
        exact (List.mem_cons.1 habove).resolve_left heq
    have hstart : (path ++ ['/']).isPrefixOf read.path = true :=
      List.isPrefixOf_iff_prefix.2 (slash_of_mem_containing hne hcontaining)
    rw [hstart, Bool.not_true, Bool.and_false]

/-- The file at the path of a read stays. -/
theorem mem_plan_read (h : ReadLike r r' read) {bytes : Bytes} : ∀ (levels : Nat) {node : Node} (dir : Str),
    node.Distinct → .file read.path bytes ∈ plan engine filter r tree levels node dir →
    .file read.path bytes ∈ plan engine filter r' tree levels node dir
  | 0, _, _, _, hmem => by cases List.mem_singleton.1 hmem
  | levels + 1, .file _, _, _, hmem => absurd hmem List.not_mem_nil
  | levels + 1, .other, _, _, hmem => absurd hmem List.not_mem_nil
  | levels + 1, .dir entries, dir, hdistinct, hmem => by
      rw [plan_dir] at hmem ⊢
      rcases List.mem_append.1 hmem with hmem | hmem
      · exact List.mem_append_left _ hmem
      -- the read goes through the same entries, and past those that are not above its path
      obtain ⟨entry, hentry, hmem⟩ := List.mem_flatMap.1 hmem
      refine List.mem_append_right _ (List.mem_flatMap.2 ⟨entry, hentry, List.mem_cons_of_mem _ ?_⟩)
      have hmem := (List.mem_cons.1 hmem).resolve_left (by simp)
      have hbelow : entry.2.Distinct := by
        cases hdistinct with
        | dir _ names dots below => exact below entry hentry
      unfold nameSteps at hmem ⊢
      cases hname : Utf8.decode entry.1.bytes with
      | none =>
        rw [hname] at hmem
        cases List.mem_singleton.1 hmem
      | some name =>
        rw [hname] at hmem
        dsimp only at hmem ⊢
        split at hmem
        · cases List.mem_singleton.1 hmem
        case isFalse hvalid =>
          have hne : child dir name ≠ [] := by
            simp only [Bool.or_eq_true, Bool.not_eq_true', not_or, Bool.not_eq_false] at hvalid
            exact ne_nil_of_validPath hvalid.1
          rw [aside_search h.search, if_neg Bool.false_ne_true] at hmem
          rw [if_neg hvalid]
          unfold nodeSteps at hmem ⊢
          split at hmem
          case isFalse => cases List.mem_singleton.1 hmem
          case isTrue hscope =>
            cases hnode : entry.2 with
            | other =>
              rw [hnode] at hmem
              cases List.mem_singleton.1 hmem
            | dir below =>
              rw [hnode] at hmem hbelow hscope
              -- a directory with the file below it is above its path
              have hplace : read.path ∈ (plan engine filter r tree levels (.dir below) (child dir name)).flatMap
                  Step.place := List.mem_flatMap.2 ⟨_, hmem, List.mem_cons_self⟩
              have habove := (plan_places levels (child dir name) hbelow).2 _ hplace
              rw [aside_above h.read hne habove, if_neg Bool.false_ne_true, if_pos hscope]
              exact mem_plan_read h levels (child dir name) hbelow hmem
            | file content =>
              rw [hnode] at hmem hscope
              have hall : ¬(r.read.any fun x => decide (x.path ≠ child dir name)) = true := by
                rw [h.search]
                exact Bool.false_ne_true
              have hmem : Step.file read.path bytes ∈ fileSteps r (child dir name) (.file content) := hmem
              unfold fileSteps at hmem
              rw [if_neg hall] at hmem
              cases hread : (Node.file content).readable r.maxFileBytes with
              | none =>
                rw [hread] at hmem
                cases List.mem_singleton.1 hmem
              | some found =>
                rw [hread] at hmem
                obtain ⟨hpath, rfl⟩ := Step.file.inj (List.mem_singleton.1 hmem)
                have habove : child dir name ∈ above read.path := hpath ▸ mem_above_self _
                rw [aside_above h.read hne habove, if_neg Bool.false_ne_true, if_pos hscope]
                show _ ∈ fileSteps r' (child dir name) (.file content)
                have hkeep : ¬(r'.read.any fun x => decide (x.path ≠ child dir name)) = true := by
                  rw [h.read]
                  simp [hpath]
                unfold fileSteps
                rw [if_neg hkeep, h.maxFileBytes, hread, hpath]
                exact List.mem_cons_self

end Plan

/-! ## §3 — the ledger of a read. -/

section Parts

variable (engine : Engine) (matcher : Bytes → List (Nat × Nat))

/-- A part of a plan has no more entries and ignore files than the plan. -/
theorem tallyOf_sublist {a b : List Step} (h : a.Sublist b) :
    (tallyOf engine matcher a).counts.visited ≤ (tallyOf engine matcher b).counts.visited ∧
    ∀ f, total f (tallyOf engine matcher a).observed ≤ total f (tallyOf engine matcher b).observed := by
  have hcons : ∀ step steps, (tallyOf engine matcher (step :: steps)).counts.visited
        = (step.tally engine matcher).counts.visited + (tallyOf engine matcher steps).counts.visited ∧
      ∀ f, total f (tallyOf engine matcher (step :: steps)).observed
        = total f (step.tally engine matcher).observed + total f (tallyOf engine matcher steps).observed :=
    fun step steps => ⟨rfl, fun f => total_append f _ _⟩
  induction h with
  | slnil => exact ⟨Nat.le_refl _, fun _ => Nat.le_refl _⟩
  | cons step _ ih =>
    refine ⟨?_, fun f => ?_⟩
    · rw [(hcons step _).1]
      exact Nat.le_trans ih.1 (Nat.le_add_left _ _)
    · rw [(hcons step _).2]
      exact Nat.le_trans (ih.2 f) (Nat.le_add_left _ _)
  | cons_cons step _ ih =>
    refine ⟨?_, fun f => ?_⟩
    · rw [(hcons step _).1, (hcons step _).1]
      exact Nat.add_le_add_left ih.1 _
    · rw [(hcons step _).2, (hcons step _).2]
      exact Nat.add_le_add_left (ih.2 f) _

/-- The records of a plan are the two of each directory it enters. -/
theorem tidy_plus : ∀ {steps : List Step} {dirs : List Str} {l : Ledger}, l.Tidy dirs →
    (dirs ++ steps.flatMap Step.entered).Nodup →
    (l.plus (tallyOf engine matcher steps)).Tidy (dirs ++ steps.flatMap Step.entered)
  | [], dirs, l, htidy, _ => by
      show (l.plus {}).Tidy (dirs ++ [])
      rw [Ledger.plus_empty, List.append_nil]
      exact htidy
  | step :: steps, dirs, l, htidy, hnodup => by
      rw [List.flatMap_cons, ← List.append_assoc] at hnodup ⊢
      have hnew : ∀ dir ∈ step.entered, dir ∉ dirs := fun dir hdir hmem =>
        (List.nodup_append.1 (List.nodup_append.1 hnodup).1).2.2 dir hmem dir hdir rfl
      have hrest := tidy_plus (htidy.perform engine matcher hnew) hnodup
      rwa [Ledger.plus_add] at hrest

end Parts

section Read

variable {engine : Engine} {matcher matcher' : Bytes → List (Nat × Nat)} {filter : Filter} {r r' : Request}
  {read : ReadRequest} {tree : Node}

/-- A plan without files. -/
def Fileless (steps : List Step) : Prop := ∀ step ∈ steps, ∀ path bytes, step ≠ .file path bytes

/-- Without files it does not matter what is asked of files. -/
theorem performAll_fileless : ∀ {steps : List Step}, Fileless steps →
    Ledger.performAll engine matcher' r' steps = Ledger.performAll engine matcher { r' with read := none } steps
  | [], _ => rfl
  | step :: steps, h => by
      have hstep : Ledger.perform engine matcher' r' step
          = Ledger.perform engine matcher { r' with read := none } step := by
        cases step with
        | file path bytes => exact absurd rfl (h _ List.mem_cons_self path bytes)
        | _ => rfl
      rw [Ledger.performAll_cons, Ledger.performAll_cons, hstep,
        performAll_fileless fun step hmem => h step (List.mem_cons_of_mem _ hmem)]

theorem tallyOf_fileless {steps : List Step} (h : Fileless steps) : (tallyOf engine matcher steps).hits = [] := by
  induction steps with
  | nil => rfl
  | cons step steps ih =>
    show (step.tally engine matcher).hits ++ (tallyOf engine matcher steps).hits = []
    rw [ih fun step hmem => h step (List.mem_cons_of_mem _ hmem)]
    cases step with
    | file path bytes => exact absurd rfl (h _ List.mem_cons_self path bytes)
    | _ => rfl

/-- What a read of a captured file comes to. -/
def readOutcome (engine : Engine) (r : Request) (read : ReadRequest) (bytes : Bytes) : Except Stop (List Hit) :=
  if read.expectedFileSha256.any (· ≠ hex (engine.sha256 bytes)) then .error .revisionMismatch
  else if read.range.stop > bytes.length
      || !isCharBoundary bytes read.range.start || !isCharBoundary bytes read.range.stop then
    .error .invalidRequest
  else if 2048 + (readHit read.path (hex (engine.sha256 bytes)) bytes read.range).size > r.responseBytes then
    .error .byteLimit
  else .ok [readHit read.path (hex (engine.sha256 bytes)) bytes read.range]

theorem tallyOf_append (a b : List Step) :
    tallyOf engine matcher (a ++ b) = (tallyOf engine matcher a).add (tallyOf engine matcher b) := by
  induction a with
  | nil =>
    show tallyOf engine matcher b = Tally.add {} _
    unfold Tally.add Counts.add
    simp
  | cons step a ih =>
    show (step.tally engine matcher).add (tallyOf engine matcher (a ++ b)) = _
    rw [ih]
    show _ = ((step.tally engine matcher).add (tallyOf engine matcher a)).add _
    unfold Tally.add
    simp only [Counts.add_assoc, List.append_assoc]

/-- What a part of a whole plan takes of the limits that it shares. -/
structure Limits (engine : Engine) (matcher : Bytes → List (Nat × Nat)) (r : Request) (part : List Step) : Prop where
  visited : (tallyOf engine matcher part).counts.visited ≤ r.maxEntries
  policyBytes : total bytesIn (tallyOf engine matcher part).observed ≤ 1048576
  policyLines : total linesIn (tallyOf engine matcher part).observed ≤ 4096
  observations : 2 * (part.flatMap Step.entered).length ≤ 4096

theorem limits_of_whole (h : ReadLike r r' read) (hdistinct : tree.Distinct)
    (hwhole : Whole engine matcher filter r tree) {part : List Step}
    (hpart : part.Sublist (plan engine filter r tree (r.maxDepth + 1) tree [])) : Limits engine matcher r part := by
  have hscheduled : scheduled engine filter r tree = plan engine filter r tree (r.maxDepth + 1) tree [] := by
    rw [scheduled, h.scanned]
    rfl
  have hwithin := hwhole.within
  have hnodup : ((scheduled engine filter r tree).flatMap Step.entered).Nodup := scheduled_entered hdistinct
  have htidy := tidy_plus engine matcher (tidy_start (r := r)) hnodup
  rw [wholeLedger] at hwithin
  rw [hscheduled] at hwithin htidy
  have hlength := htidy.length
  rw [List.nil_append] at hlength
  obtain ⟨hvisited, htotal⟩ := tallyOf_sublist engine matcher hpart
  have hentered : (part.flatMap Step.entered).length
      ≤ ((plan engine filter r tree (r.maxDepth + 1) tree []).flatMap Step.entered).length :=
    (hpart.flatMap Step.entered).length_le
  have hobservations := hwithin.observations
  refine ⟨?_, ?_, ?_, by omega⟩
  · refine Nat.le_trans hvisited (Nat.le_trans (Nat.le_of_eq ?_) hwithin.visited)
    exact (Nat.zero_add _).symm
  · refine Nat.le_trans (htotal bytesIn) (Nat.le_trans (Nat.le_of_eq ?_) hwithin.policyBytes)
    exact (Nat.zero_add _).symm
  · refine Nat.le_trans (htotal linesIn) (Nat.le_trans (Nat.le_of_eq ?_) hwithin.policyLines)
    exact (Nat.zero_add _).symm

/-- A part without files, of which all fits, is carried out. -/
theorem part_runs {part : List Step} {dirs : List Str} {l : Ledger} (hfileless : Fileless part)
    (hclean : ∀ step ∈ part, step.Clean matcher) (htidy : l.Tidy dirs)
    (hnodup : (dirs ++ part.flatMap Step.entered).Nodup) (hcomplete : l.result.coverage = .complete)
    (hl : l.Within r') (hafter : (l.plus (tallyOf engine matcher part)).Within r') :
    Ledger.performAll engine matcher' r' part l = (.ok (), l.plus (tallyOf engine matcher part)) := by
  have hsame : ∀ {l : Ledger}, l.Within r' → l.Within { r' with read := none } := fun h =>
    ⟨h.visited, h.hits, h.used, h.policyBytes, h.policyLines, h.observations⟩
  have hiff : (Ledger.performAll engine matcher { r' with read := none } part l
      = (.ok (), l.plus (tallyOf engine matcher part)) ∧ _) ↔ _ :=
    Ledger.performAll_iff rfl (hsame hl) htidy hcomplete hnodup
  rw [performAll_fileless hfileless]
  exact (hiff.2 ⟨hclean, rfl, hsame hafter⟩).1

/-- A read of a captured file, for a ledger without hits. -/
theorem read_run (hread : r'.read = some read) {path : Str} (hpath : path = read.path) {bytes : Bytes} {l : Ledger}
    (hused : l.usedBytes = 2048) :
    Ledger.perform engine matcher' r' (.file path bytes) l = match readOutcome engine r' read bytes with
      | .error stop => (.error stop, { l with result := l.result.searched bytes })
      | .ok hits => (.ok (), { l with
          result := { l.result.searched bytes with hits := l.result.hits ++ hits } }) := by
  subst hpath
  show Ledger.ask engine matcher' r' read.path bytes r'.read { l with result := l.result.searched bytes } = _
  rw [hread]
  show (if read.expectedFileSha256.any (· ≠ hex (engine.sha256 bytes)) then .fail .revisionMismatch
    else if read.range.stop > bytes.length
        || !isCharBoundary bytes read.range.start || !isCharBoundary bytes read.range.stop then
      .fail .invalidRequest
    else if l.usedBytes + (readHit read.path (hex (engine.sha256 bytes)) bytes read.range).size > r'.responseBytes then
      .fail .byteLimit
    else .modify (Ledger.push (readHit read.path (hex (engine.sha256 bytes)) bytes read.range)) : Entry) _ = _
  rw [hused]
  unfold readOutcome
  split
  · rfl
  · split
    · rfl
    · split <;> rfl

/-- The plan of a read has its file once. -/
theorem plan_read_split (hread : r.read = some read) (hdistinct : tree.Distinct) {bytes : Bytes} {levels : Nat}
    {pre post : List Step}
    (hsplit : plan engine filter r tree levels tree [] = pre ++ .file read.path bytes :: post) :
    Fileless pre ∧ Fileless post := by
  have hnodup : ((plan engine filter r tree levels tree []).flatMap Step.place).Nodup :=
    (plan_places levels [] hdistinct).1
  have hpath : ∀ step ∈ plan engine filter r tree levels tree [], ∀ path bytes, step = .file path bytes →
      path = read.path := path_of_mem_plan hread levels tree []
  rw [hsplit] at hnodup hpath
  rw [List.flatMap_append, List.flatMap_cons] at hnodup
  obtain ⟨-, hrest, hdisjoint⟩ := List.nodup_append.1 hnodup
  obtain ⟨-, -, hdisjoint'⟩ := List.nodup_append.1 hrest
  have hown : read.path ∈ Step.place (.file read.path bytes) := List.mem_cons_self
  constructor
  · rintro step hmem path found rfl
    obtain rfl := hpath _ (List.mem_append_left _ hmem) path found rfl
    have hplace : read.path ∈ pre.flatMap Step.place := List.mem_flatMap.2 ⟨_, hmem, List.mem_cons_self⟩
    exact hdisjoint _ hplace _ (List.mem_append_left _ hown) rfl
  · rintro step hmem path found rfl
    obtain rfl := hpath _ (List.mem_append_right _ (List.mem_cons_of_mem _ hmem)) path found rfl
    have hplace : read.path ∈ post.flatMap Step.place := List.mem_flatMap.2 ⟨_, hmem, List.mem_cons_self⟩
    exact hdisjoint' _ hown _ hplace rfl

/-- A part of a whole plan without files fits into a read. -/
theorem within_part (h : ReadLike r r' read) (hvalid : validate r' = .ok ()) {part : List Step}
    (hfileless : Fileless part) (hlimits : Limits engine matcher r part)
    (hnodup : (part.flatMap Step.entered).Nodup) :
    ((Ledger.start r').plus (tallyOf engine matcher part)).Within r' := by
  have htidy := tidy_plus engine matcher (tidy_start (r := r')) hnodup
  have hobservations := htidy.length
  rw [List.nil_append] at hobservations
  have hhits : (tallyOf engine matcher part).hits = [] := tallyOf_fileless hfileless
  refine ⟨?_, ?_, ?_, ?_, ?_, ?_⟩
  · exact Nat.le_trans (Nat.le_of_eq (Nat.zero_add _)) (Nat.le_trans hlimits.visited h.maxEntries)
  · show ([] ++ (tallyOf engine matcher part).hits).length ≤ _
    rw [hhits]
    exact Nat.zero_le _
  · show 2048 + chargeOf (tallyOf engine matcher part).hits ≤ _
    rw [hhits]
    exact (validate_ok hvalid).responseBytes.1
  · exact Nat.le_trans (Nat.le_of_eq (Nat.zero_add _)) hlimits.policyBytes
  · exact Nat.le_trans (Nat.le_of_eq (Nat.zero_add _)) hlimits.policyLines
  · rw [hobservations]
    exact hlimits.observations

/-- The steps of a read before and behind its file, and what they share with the search. -/
structure Around (engine : Engine) (filter : Filter) (r r' : Request) (tree : Node) (path : Str) (bytes : Bytes)
    (pre post : List Step) : Prop where
  split : plan engine filter r' tree (r'.maxDepth + 1) tree [] = pre ++ .file path bytes :: post
  before : Fileless pre
  behind : Fileless post
  part : (pre ++ post).Sublist (plan engine filter r tree (r.maxDepth + 1) tree [])
  nodup : (pre.flatMap Step.entered ++ post.flatMap Step.entered).Nodup

theorem exists_around (h : ReadLike r r' read) (hdistinct : tree.Distinct) {bytes : Bytes}
    (hmem : .file read.path bytes ∈ plan engine filter r tree (r.maxDepth + 1) tree []) :
    ∃ pre post, Around engine filter r r' tree read.path bytes pre post := by
  have hkept := mem_plan_read h (r.maxDepth + 1) [] hdistinct hmem
  rw [← h.maxDepth] at hkept
  obtain ⟨pre, post, hsplit⟩ := List.mem_iff_append.1 hkept
  obtain ⟨hpre, hpost⟩ := plan_read_split h.read hdistinct hsplit
  have hsub : (plan engine filter r' tree (r'.maxDepth + 1) tree []).Sublist
      (plan engine filter r tree (r.maxDepth + 1) tree []) := by
    rw [h.maxDepth]
    exact plan_sublist h _ _ _
  have hnodup : ((plan engine filter r' tree (r'.maxDepth + 1) tree []).flatMap Step.entered).Nodup :=
    (plan_places _ [] hdistinct).1.sublist (entered_sublist _)
  rw [hsplit] at hsub hnodup
  rw [List.flatMap_append, List.flatMap_cons] at hnodup
  exact ⟨pre, post, hsplit, hpre, hpost,
    ((List.Sublist.refl pre).append (List.sublist_cons_self _ post)).trans hsub, hnodup⟩

theorem Around.fileless {path : Str} {bytes : Bytes} {pre post : List Step}
    (h : Around engine filter r r' tree path bytes pre post) : Fileless (pre ++ post) := by
  intro step hstep
  rcases List.mem_append.1 hstep with hstep | hstep
  · exact h.before step hstep
  · exact h.behind step hstep

/-- A ledger that a read has reached its file with. -/
structure AtFile (r : Request) (dirs : List Str) (l : Ledger) : Prop where
  within : l.Within r
  tidy : l.Tidy dirs
  hits : l.result.hits = []
  reasons : l.result.reasons = []
  complete : l.result.coverage = .complete
  used : l.usedBytes = 2048

variable (matcher') in
/-- The file is reached. -/
theorem reached_file (h : ReadLike r r' read) (hdistinct : tree.Distinct) (hvalid : validate r' = .ok ())
    (hwhole : Whole engine matcher filter r tree) {bytes : Bytes} {pre post : List Step}
    (haround : Around engine filter r r' tree read.path bytes pre post)
    (hclean : ∀ step ∈ pre, step.Clean matcher) :
    Ledger.performAll engine matcher' r' pre (Ledger.start r')
        = (.ok (), (Ledger.start r').plus (tallyOf engine matcher pre)) ∧
      AtFile r' (pre.flatMap Step.entered) ((Ledger.start r').plus (tallyOf engine matcher pre)) := by
  have hnodup : (pre.flatMap Step.entered).Nodup := (List.nodup_append.1 haround.nodup).1
  have hpart := (List.sublist_append_left pre post).trans haround.part
  have hwithin : ((Ledger.start r').plus (tallyOf engine matcher pre)).Within r' :=
    within_part h hvalid haround.before (limits_of_whole h hdistinct hwhole hpart) hnodup
  have hnone : (tallyOf engine matcher pre).hits = [] := tallyOf_fileless haround.before
  refine ⟨part_runs haround.before hclean tidy_start hnodup rfl (within_start hvalid) hwithin, hwithin,
    tidy_plus engine matcher tidy_start hnodup, ?_, rfl, rfl, ?_⟩
  · show [] ++ (tallyOf engine matcher pre).hits = []
    rw [hnone]
    rfl
  · show 2048 + chargeOf (tallyOf engine matcher pre).hits = 2048
    rw [hnone]
    rfl

theorem length_readOutcome {bytes : Bytes} {hits : List Hit}
    (h : readOutcome engine r read bytes = .ok hits) : hits.length = 1 := by
  unfold readOutcome at h
  split at h
  · cases h
  · split at h
    · cases h
    · split at h
      · cases h
      · obtain rfl := Except.ok.inj h
        rfl

/-- The ledger behind a file that was read. -/
def Ledger.found (bytes : Bytes) (hits : List Hit) (l : Ledger) : Ledger :=
  { l with result := { l.result.searched bytes with hits := l.result.hits ++ hits } }

variable (matcher') in
/-- Behind the file nothing is found any more, and the limits hold on. -/
theorem found_runs {dirs : List Str} {l : Ledger} (hl : AtFile r' dirs l) (bytes : Bytes) {hits : List Hit}
    (hone : hits.length = 1) (hroom : 1 ≤ r'.maxMatches) {post : List Step} (hpost : Fileless post)
    (hclean : ∀ step ∈ post, step.Clean matcher) (hnodup : (dirs ++ post.flatMap Step.entered).Nodup)
    (hlast : (l.plus (tallyOf engine matcher post)).Within r') :
    Ledger.performAll engine matcher' r' post (l.found bytes hits)
        = (.ok (), (l.found bytes hits).plus (tallyOf engine matcher post)) ∧
      ((l.found bytes hits).plus (tallyOf engine matcher post)).result.hits = hits := by
  have hnone : (tallyOf engine matcher post).hits = [] := tallyOf_fileless hpost
  have hhits : ((l.found bytes hits).plus (tallyOf engine matcher post)).result.hits = hits := by
    show l.result.hits ++ hits ++ (tallyOf engine matcher post).hits = hits
    rw [hl.hits, hnone, List.nil_append, List.append_nil]
  have hmid : (l.found bytes hits).Within r' := by
    refine ⟨hl.within.visited, ?_, hl.within.used, hl.within.policyBytes, hl.within.policyLines,
      hl.within.observations⟩
    show (l.result.hits ++ hits).length ≤ _
    rw [hl.hits, List.nil_append, hone]
    exact hroom
  have hend : ((l.found bytes hits).plus (tallyOf engine matcher post)).Within r' := by
    refine ⟨hlast.visited, ?_, hlast.used, hlast.policyBytes, hlast.policyLines, hlast.observations⟩
    rw [hhits, hone]
    exact hroom
  exact ⟨part_runs hpost hclean ⟨hl.tidy.length, hl.tidy.keys⟩ hnodup hl.complete hmid hend, hhits⟩

variable (matcher') in
/-- A read of a path that a complete search searched. -/
theorem performAll_found (h : ReadLike r r' read) (hdistinct : tree.Distinct) (hvalid : validate r' = .ok ())
    (hwhole : Whole engine matcher filter r tree) {bytes : Bytes}
    (hmem : .file read.path bytes ∈ plan engine filter r tree (r.maxDepth + 1) tree []) :
    ∃ l, match readOutcome engine r' read bytes with
      | .error stop => Ledger.performAll engine matcher' r' (plan engine filter r' tree (r'.maxDepth + 1) tree [])
          (Ledger.start r') = (.error stop, l)
      | .ok hits => Ledger.performAll engine matcher' r' (plan engine filter r' tree (r'.maxDepth + 1) tree [])
          (Ledger.start r') = (.ok (), l) ∧ l.result.hits = hits ∧ l.result.reasons = [] := by
  have hclean : ∀ step ∈ plan engine filter r tree (r.maxDepth + 1) tree [], step.Clean matcher := by
    have hscheduled := hwhole.clean
    rwa [scheduled, h.scanned] at hscheduled
  obtain ⟨pre, post, haround⟩ := exists_around h hdistinct hmem
  have hpart : ∀ step ∈ pre ++ post, step.Clean matcher := fun step hstep =>
    hclean step (haround.part.subset hstep)
  obtain ⟨hrun, hreached⟩ := reached_file matcher' h hdistinct hvalid hwhole haround
    fun step hstep => hpart step (List.mem_append_left _ hstep)
  -- the limits hold with what comes behind the file, too
  have hlast : ((Ledger.start r').plus (tallyOf engine matcher (pre ++ post))).Within r' := by
    apply within_part h hvalid haround.fileless (limits_of_whole h hdistinct hwhole haround.part)
    rw [List.flatMap_append]
    exact haround.nodup
  rw [tallyOf_append, ← Ledger.plus_add] at hlast
  rw [haround.split, Ledger.performAll_append, bind_of_ok hrun, Ledger.performAll_cons]
  generalize (Ledger.start r').plus (tallyOf engine matcher pre) = l at hreached hlast
  have hread : Ledger.perform engine matcher' r' (.file read.path bytes) l = _ :=
    read_run h.read rfl hreached.used
  rcases hout : readOutcome engine r' read bytes with stop | hits
  · rw [hout] at hread
    exact ⟨_, bind_of_error hread⟩
  · rw [hout] at hread
    obtain ⟨hrest, hhits⟩ := found_runs matcher' hreached bytes (length_readOutcome hout)
      (validate_ok hvalid).maxMatches.1 haround.behind
      (fun step hstep => hpart step (List.mem_append_right _ hstep)) haround.nodup hlast
    exact ⟨_, (bind_of_ok hread).trans hrest, hhits, hreached.reasons⟩

variable (matcher') in
/-- A read of a path that a complete search did not search. -/
theorem performAll_missing (h : ReadLike r r' read) (hdistinct : tree.Distinct) (hvalid : validate r' = .ok ())
    (hwhole : Whole engine matcher filter r tree)
    (hmem : ∀ bytes, .file read.path bytes ∉ plan engine filter r tree (r.maxDepth + 1) tree []) :
    ∃ l, Ledger.performAll engine matcher' r' (plan engine filter r' tree (r'.maxDepth + 1) tree [])
      (Ledger.start r') = (.ok (), l) ∧ l.result.hits = [] ∧ l.result.reasons = [] := by
  have hclean : ∀ step ∈ plan engine filter r tree (r.maxDepth + 1) tree [], step.Clean matcher := by
    have hscheduled := hwhole.clean
    rwa [scheduled, h.scanned] at hscheduled
  have hsub : (plan engine filter r' tree (r'.maxDepth + 1) tree []).Sublist
      (plan engine filter r tree (r.maxDepth + 1) tree []) := by
    rw [h.maxDepth]
    exact plan_sublist h _ _ _
  have hfileless : Fileless (plan engine filter r' tree (r'.maxDepth + 1) tree []) := by
    rintro step hstep path bytes rfl
    obtain rfl := path_of_mem_plan h.read _ _ _ _ hstep path bytes rfl
    exact hmem bytes (hsub.subset hstep)
  have hnodup : ((plan engine filter r' tree (r'.maxDepth + 1) tree []).flatMap Step.entered).Nodup :=
    (plan_places _ [] hdistinct).1.sublist (entered_sublist _)
  refine ⟨_, part_runs hfileless (fun step hstep => hclean step (hsub.subset hstep)) tidy_start hnodup rfl
    (within_start hvalid) (within_part h hvalid hfileless (limits_of_whole h hdistinct hwhole hsub) hnodup), ?_, rfl⟩
  show [] ++ (tallyOf engine matcher _).hits = []
  rw [tallyOf_fileless hfileless]
  rfl

end Read

/-! ## §4 — `search`. -/

/-- The file a step searches. -/
def Step.files : Step → List (Str × Bytes)
  | .file path bytes => [(path, bytes)]
  | _ => []

/-- The files that a plan searches. -/
def filesOf (steps : List Step) : List (Str × Bytes) := steps.flatMap Step.files

theorem mem_filesOf {steps : List Step} {path : Str} {bytes : Bytes} :
    (path, bytes) ∈ filesOf steps ↔ .file path bytes ∈ steps := by
  unfold filesOf
  rw [List.mem_flatMap]
  constructor
  · rintro ⟨step, hmem, h⟩
    cases step with
    | file path' bytes' =>
      obtain ⟨rfl, rfl⟩ := Prod.mk.inj (List.mem_singleton.1 h)
      exact hmem
    | _ => exact absurd h List.not_mem_nil
  · intro h
    exact ⟨_, h, List.mem_cons_self⟩

/-- What a read of a file comes to. -/
def readAnswer (engine : Engine) (r : Request) (read : ReadRequest) (bytes : Bytes) : Except Code (List Hit) :=
  if read.expectedFileSha256.any (· ≠ hex (engine.sha256 bytes)) then .error .revisionMismatch
  else if read.range.stop > bytes.length
      || !isCharBoundary bytes read.range.start || !isCharBoundary bytes read.range.stop then
    .error .invalidRequest
  else if 2048 + (readHit read.path (hex (engine.sha256 bytes)) bytes read.range).size > r.responseBytes then
    .error .byteLimit
  else .ok [readHit read.path (hex (engine.sha256 bytes)) bytes read.range]

theorem readAnswer_eq (engine : Engine) (r : Request) (read : ReadRequest) (bytes : Bytes) :
    match readOutcome engine r read bytes with
    | .error stop => ∃ code, stop.code = some code ∧ readAnswer engine r read bytes = .error code
    | .ok hits => readAnswer engine r read bytes = .ok hits ∧ hits ≠ [] := by
  unfold readOutcome readAnswer
  by_cases hdigest : (read.expectedFileSha256.any (· ≠ hex (engine.sha256 bytes))) = true
  · rw [if_pos hdigest, if_pos hdigest]
    exact ⟨_, rfl, rfl⟩
  rw [if_neg hdigest, if_neg hdigest]
  by_cases hrange : (read.range.stop > bytes.length
      || !isCharBoundary bytes read.range.start || !isCharBoundary bytes read.range.stop) = true
  · rw [if_pos hrange, if_pos hrange]
    exact ⟨_, rfl, rfl⟩
  rw [if_neg hrange, if_neg hrange]
  by_cases hsize : 2048 + (readHit read.path (hex (engine.sha256 bytes)) bytes read.range).size > r.responseBytes
  · rw [if_pos hsize, if_pos hsize]
    exact ⟨_, rfl, rfl⟩
  · rw [if_neg hsize, if_neg hsize]
    exact ⟨rfl, List.cons_ne_nil _ _⟩

section Search

variable {engine : Engine} {matcher matcher' : Bytes → List (Nat × Nat)} {r r' : Request} {read : ReadRequest}
  {scope : Scope} {tree : Node}

theorem scheduled_eq (hscan : r.validateScopeOnly = false) :
    scheduled engine scope.toFilter r tree = planOf engine scope r tree := by
  rw [scheduled, hscan]
  rfl

/-- What a read comes to, by whether a complete search has its file. -/
theorem planned_read (h : ReadLike r r' read) (hdistinct : tree.Distinct) (hvalid : validate r' = .ok ())
    (hmatcher : engine.matcher r'.pattern r'.kind r'.caseSensitive = some matcher')
    (hscope : Scope.new engine r.scope = .ok scope) (hwhole : Whole engine matcher scope.toFilter r tree) :
    (∀ bytes, (read.path, bytes) ∈ filesOf (planOf engine scope r tree) →
      (planned engine r' tree).map (Except.map Success.hits) = some (readAnswer engine r' read bytes)) ∧
    ((∀ bytes, (read.path, bytes) ∉ filesOf (planOf engine scope r tree)) →
      planned engine r' tree = some (.error .outOfScope)) := by
  have hplanned : planned engine r' tree = carriedOut engine matcher' scope.toFilter r' tree (Ledger.start r') := by
    unfold planned
    rw [hvalid, hmatcher, h.scope, hscope]
  have htraverse : Ledger.traverse engine matcher' r'
      (plan engine scope.toFilter r' tree (r'.maxDepth + 1) tree []) = (.attempt (Ledger.performAll engine matcher' r'
        (plan engine scope.toFilter r' tree (r'.maxDepth + 1) tree [])) >>= Ledger.settle r') := by
    unfold Ledger.traverse
    rw [h.scanned']
    rfl
  have hanswer : ∀ l : Ledger, l.result.reasons = [] → l.answer engine r' =
      if l.result.hits.isEmpty then .error .outOfScope
      else .ok { l.result with
        policySnapshotHash := snapshotHash engine l.records.observations
        elapsedMs := .nat 0 } := by
    intro l hreasons
    unfold Ledger.answer
    rw [h.read, hreasons]
    rfl
  rw [hplanned]
  unfold carriedOut
  rw [htraverse]
  constructor
  · intro bytes hmem
    obtain ⟨l, hrun⟩ := performAll_found matcher' h hdistinct hvalid hwhole (mem_filesOf.1 hmem)
    have heq := readAnswer_eq engine r' read bytes
    rcases hout : readOutcome engine r' read bytes with stop | hits <;> rw [hout] at hrun heq
    · -- a read does not survive its errors
      obtain ⟨code, hcode, hresult⟩ := heq
      have hsorted : Ledger.settle r' (.error stop) l = (.error stop, l) := by
        show Ledger.sorted r' stop l = _
        unfold Ledger.sorted
        rw [hcode, h.read]
        rfl
      rw [bind_of_ok (Exec.attempt_run _ _), hrun]
      dsimp only
      rw [hsorted, hresult]
      dsimp only
      rw [hcode]
      rfl
    · obtain ⟨hresult, hne⟩ := heq
      obtain ⟨hrun, hhits, hreasons⟩ := hrun
      rw [bind_of_ok (Exec.attempt_run _ _), hrun]
      show (some (l.answer engine r')).map (Except.map Success.hits) = _
      have hfull : ¬l.result.hits.isEmpty = true := by
        rw [hhits]
        simpa using hne
      rw [hanswer l hreasons, if_neg hfull, hresult]
      exact congrArg some (congrArg Except.ok hhits)
  · intro hnone
    obtain ⟨l, hrun, hhits, hreasons⟩ := performAll_missing matcher' h hdistinct hvalid hwhole
      fun bytes hmem => hnone bytes (mem_filesOf.2 hmem)
    rw [bind_of_ok (Exec.attempt_run _ _), hrun]
    show some (l.answer engine r') = _
    rw [hanswer l hreasons, hhits]
    rfl

theorem searched_eq : ∀ steps : List Step,
    (tallyOf engine matcher steps).counts.searched = (filesOf steps).length
  | [] => rfl
  | step :: steps => by
      show (step.tally engine matcher).counts.searched + (tallyOf engine matcher steps).counts.searched = _
      have hlength : (filesOf (step :: steps)).length = step.files.length + (filesOf steps).length :=
        List.length_append
      rw [searched_eq steps, hlength]
      cases step <;> rfl

theorem filesOf_nodup (hdistinct : tree.Distinct) : ((filesOf (planOf engine scope r tree)).map (·.1)).Nodup := by
  have hplaces : ((planOf engine scope r tree).flatMap Step.place).Nodup := (plan_places _ [] hdistinct).1
  refine hplaces.sublist ?_
  rw [filesOf, List.map_flatMap]
  refine List.Sublist.flatMap_right _ fun step _ => ?_
  cases step with
  | file path bytes => exact List.Sublist.refl _
  | _ => exact List.nil_sublist _

/-- The hit of a match in a file is what a read of its range gives. -/
theorem matchHit_eq_readHit (path digest : Str) {bytes : Bytes} {start stop : Nat}
    (hlength : stop - start ≤ 4096) (hstop : isCharBoundary bytes stop = true) :
    matchHit path digest bytes start stop = readHit path digest bytes ⟨start, stop⟩ := by
  have hmin : min stop (start + 4096) = stop := by omega
  have hend : boundaryBelow bytes stop = stop :=
    Nat.le_antisymm (boundaryBelow_le _ _) (le_boundaryBelow hstop (Nat.le_refl _))
  unfold matchHit readHit
  simp [hmin, hend]

/-- A hit of a whole answer, read again. -/
theorem readAnswer_hit (hscan : r.validateScopeOnly = false)
    (hwhole : Whole engine matcher scope.toFilter r tree) {hit : Hit}
    (hhit : hit ∈ (wholeAnswer engine matcher scope.toFilter r tree).hits)
    (hlength : hit.range.stop - hit.range.start ≤ 4096) (hpath : read.path = hit.path)
    (hrange : read.range = hit.range)
    (hdigest : ∀ digest, read.expectedFileSha256 = some digest → digest = hit.fileSha256)
    (hsize : 2048 + hit.size ≤ r'.responseBytes) :
    ∃ bytes, (read.path, bytes) ∈ filesOf (planOf engine scope r tree) ∧
      readAnswer engine r' read bytes = .ok [hit] := by
  have hscheduled : scheduled engine scope.toFilter r tree = planOf engine scope r tree := scheduled_eq hscan
  have hhits : hit ∈ (tallyOf engine matcher (planOf engine scope r tree)).hits := by
    rw [← hscheduled]
    exact hhit
  rw [tallyOf_hits] at hhits
  obtain ⟨step, hstep, hhits⟩ := List.mem_flatMap.1 hhits
  cases step with
  | file path bytes =>
    have hclean : bytes.isEmpty = false → CutWell bytes (matcher bytes) :=
      hwhole.clean (.file path bytes) (hscheduled ▸ hstep)
    have hfound : hit ∈ fileHits engine matcher path bytes := hhits
    cases hempty : bytes.isEmpty with
    | true =>
      rw [fileHits, if_pos hempty] at hfound
      exact absurd hfound List.not_mem_nil
    | false =>
      rw [Ledger.fileHits_eq path hempty] at hfound
      obtain ⟨m, hm, rfl⟩ := List.mem_map.1 hfound
      obtain ⟨hm, hshown⟩ := List.mem_filter.1 hm
      have hcut := hclean hempty m hm (by simpa using hshown)
      rw [Bool.and_eq_true] at hcut
      have hread : matchHit path (hex (engine.sha256 bytes)) bytes m.1 m.2
          = readHit path (hex (engine.sha256 bytes)) bytes ⟨m.1, m.2⟩ :=
        matchHit_eq_readHit _ _ hlength hcut.2
      rw [hread] at hpath hrange hdigest hsize ⊢
      obtain rfl : read.path = path := hpath
      have hrange : read.range = ⟨m.1, m.2⟩ := hrange
      refine ⟨bytes, mem_filesOf.2 hstep, ?_⟩
      have hexpected : ¬(read.expectedFileSha256.any (· ≠ hex (engine.sha256 bytes))) = true := by
        cases hasked : read.expectedFileSha256 with
        | none => simp
        | some digest =>
          have hsame : digest = hex (engine.sha256 bytes) := hdigest digest hasked
          simp [hsame]
      have hinside : ¬(decide (m.2 > bytes.length) || !isCharBoundary bytes m.1 || !isCharBoundary bytes m.2) = true := by
        have hle := le_of_isCharBoundary hcut.2
        simp [hcut.1, hcut.2, hle]
      unfold readAnswer
      rw [if_neg hexpected, hrange, if_neg hinside, if_neg (Nat.not_lt.2 hsize)]
  | _ => exact absurd hhits List.not_mem_nil

section Static

variable {σ φ : Type} {os : Os σ φ} {root : φ} {listed : List (DirName × Node)} {w : World σ φ}

/-- What a request on a static system comes to, from its plan. -/
theorem hits_of_planned (st : Static os (.dir listed) root) (hdistinct : Node.Distinct (.dir listed))
    (htime : ∀ s, (os.now s).1 < (os.now w.os).1 + r.deadlineMs * 1000000) {answer : Except Code (List Hit)}
    (h : (planned engine r (.dir listed)).map (Except.map Success.hits) = some answer) :
    (search engine os root r w).1.map Success.hits = answer := by
  have hplanned := search_planned engine st hdistinct htime
  cases hplan : planned engine r (.dir listed) with
  | none =>
    rw [hplan] at h
    cases h
  | some outcome =>
    rw [hplan] at h hplanned
    obtain rfl := Option.some.inj h
    rw [← hplanned]
    rcases (search engine os root r w).1 with code | success <;> rfl

/-- What a read on a static system comes to, by whether a complete search has its file. -/
theorem read_of_whole (st : Static os (.dir listed) root) (hdistinct : Node.Distinct (.dir listed))
    (hscope : Scope.new engine r.scope = .ok scope) (hwhole : Whole engine matcher scope.toFilter r (.dir listed))
    (h : ReadLike r r' read) (hvalid : validate r' = .ok ())
    (hpattern : (engine.matcher r'.pattern r'.kind r'.caseSensitive).isSome = true)
    (htime : ∀ s, (os.now s).1 < (os.now w.os).1 + r'.deadlineMs * 1000000) :
    (∀ bytes, (read.path, bytes) ∈ filesOf (planOf engine scope r (.dir listed)) →
      (search engine os root r' w).1.map Success.hits = readAnswer engine r' read bytes) ∧
    ((∀ bytes, (read.path, bytes) ∉ filesOf (planOf engine scope r (.dir listed))) →
      (search engine os root r' w).1 = .error .outOfScope) := by
  obtain ⟨matcher', hmatcher'⟩ := Option.isSome_iff_exists.1 hpattern
  obtain ⟨hfound, hmissing⟩ := planned_read h hdistinct hvalid hmatcher' hscope hwhole
  refine ⟨fun bytes hmem => hits_of_planned st hdistinct htime (hfound bytes hmem), fun hnone => ?_⟩
  have hplanned := search_planned engine st hdistinct htime
  rw [hmissing hnone] at hplanned
  rcases hread : (search engine os root r' w).1 with code | success
  · rw [hread] at hplanned
    exact hplanned
  · rw [hread] at hplanned
    cases hplanned

/-- A whole answer counts the files of its plan. -/
theorem counts_of_whole (hscan : r.validateScopeOnly = false) {success : Success}
    (hsame : success.timeless = wholeAnswer engine matcher scope.toFilter r tree) :
    success.counts.searched = (filesOf (planOf engine scope r tree)).length := by
  have hcounts : success.counts = (tallyOf engine matcher (planOf engine scope r tree)).counts := by
    show success.timeless.counts = _
    rw [hsame]
    show Counts.add {} (tallyOf engine matcher (scheduled engine scope.toFilter r tree)).counts = _
    rw [scheduled_eq hscan, Counts.add_comm, Counts.add_zero]
  rw [hcounts, searched_eq]

end Static

end Search

/-- **Reads agree with a complete search on scope.** Take a search that is complete on a system that shows a
tree. Of every read in its scope, on any system that shows the tree: at the path of a file that the search
counted as searched it comes to what its digest, range and budget make of that file, and at every other path
the path is out of scope. -/
theorem read_agrees {σ φ : Type} (engine : Engine) {os : Os σ φ} {root : φ} {listed : List (DirName × Node)}
    (st : Static os (.dir listed) root) (hdistinct : Node.Distinct (.dir listed)) (r : Request)
    (hsearch : r.read = none) (hscan : r.validateScopeOnly = false) (w : World σ φ)
    (htime : ∀ s, (os.now s).1 < (os.now w.os).1 + r.deadlineMs * 1000000) {success : Success}
    (hrun : (search engine os root r w).1 = .ok success) (hcomplete : success.coverage = .complete) :
    ∃ scope, Scope.new engine r.scope = .ok scope ∧
      success.counts.searched = (filesOf (planOf engine scope r (.dir listed))).length ∧
      ((filesOf (planOf engine scope r (.dir listed))).map (·.1)).Nodup ∧
      ∀ {σ' φ' : Type} {os' : Os σ' φ'} {root' : φ'} (_ : Static os' (.dir listed) root') {r' : Request}
        {read : ReadRequest} (_ : ReadLike r r' read) (_ : validate r' = .ok ())
        (_ : (engine.matcher r'.pattern r'.kind r'.caseSensitive).isSome = true) (w' : World σ' φ')
        (_ : ∀ s, (os'.now s).1 < (os'.now w'.os).1 + r'.deadlineMs * 1000000),
        (∀ bytes, (read.path, bytes) ∈ filesOf (planOf engine scope r (.dir listed)) →
          (search engine os' root' r' w').1.map Success.hits = readAnswer engine r' read bytes) ∧
        ((∀ bytes, (read.path, bytes) ∉ filesOf (planOf engine scope r (.dir listed))) →
          (search engine os' root' r' w').1 = .error .outOfScope) := by
  have hanswered := answeredWhole_of_complete st hdistinct hsearch htime hrun hcomplete
  obtain ⟨matcher, scope, -, hscope, hwhole, hsame⟩ := hanswered.answered
  refine ⟨scope, hscope, counts_of_whole hscan hsame, filesOf_nodup hdistinct, ?_⟩
  intro σ' φ' os' root' st' r' read h hvalid hpattern w' htime'
  exact read_of_whole st' hdistinct hscope hwhole h hvalid hpattern htime'

theorem readLike_readOf (read : ReadRequest) : ReadLike (.literal ['a']) (.readOf read) read :=
  ⟨rfl, rfl, rfl, rfl, rfl, Nat.le_refl _, rfl, rfl⟩

/-- A read of two bytes at a path. -/
def ReadRequest.start (path : Str) : ReadRequest := ⟨path, ⟨0, 2⟩, none⟩

theorem read_agrees_twoNames :
    (search Engine.plain (Node.os (.dir twoNames)) (.dir twoNames) (.readOf (.start ['b'])) ⟨0, []⟩).1.map
        Success.hits
      = readAnswer Engine.plain (.readOf (.start ['b'])) (.start ['b']) (Utf8.encode "aa\n".toList) ∧
    (search Engine.plain (Node.os (.dir twoNames)) (.dir twoNames) (.readOf (.start ['c'])) ⟨0, []⟩).1
      = .error .outOfScope := by
  have hcomplete : (search Engine.plain (Node.os (.dir twoNames)) (.dir twoNames) (.literal ['a']) ⟨0, []⟩).1.toOption.map
      Success.coverage = some .complete := by decide +kernel
  have hfiles : filesOf (planOf Engine.plain oneFileStart.scope (.literal ['a']) (.dir twoNames))
      = [(['a'], Utf8.encode "xa\n".toList), (['b'], Utf8.encode "aa\n".toList)] := by decide +kernel
  rcases hrun : (search Engine.plain (Node.os (.dir twoNames)) (.dir twoNames) (.literal ['a']) ⟨0, []⟩).1
    with code | success
  · rw [hrun] at hcomplete
    cases hcomplete
  · rw [hrun] at hcomplete
    obtain ⟨scope, hscope, -, -, hreads⟩ := read_agrees Engine.plain (Node.static (.dir twoNames)) distinct_twoNames
      (.literal ['a']) rfl rfl ⟨0, []⟩ (fun _ => Nat.zero_lt_succ _) hrun (Option.some.inj hcomplete)
    obtain rfl : scope = oneFileStart.scope := (Except.ok.inj hscope).symm
    rw [hfiles] at hreads
    constructor
    · exact (hreads (Node.static (.dir twoNames)) (readLike_readOf (.start ['b'])) (by decide +kernel) rfl ⟨0, []⟩
        fun _ => Nat.zero_lt_succ _).1 _ (by decide)
    · exact (hreads (Node.static (.dir twoNames)) (readLike_readOf (.start ['c'])) (by decide +kernel) rfl ⟨0, []⟩
        fun _ => Nat.zero_lt_succ _).2 (by simp [ReadRequest.start])

/-- **Hits of a complete search can be read again.** Each hit of at most 4096 bytes is what a read of its path
and range returns, with or without its digest, on any system that shows the tree. -/
theorem hit_verified {σ φ : Type} (engine : Engine) {os : Os σ φ} {root : φ} {listed : List (DirName × Node)}
    (st : Static os (.dir listed) root) (hdistinct : Node.Distinct (.dir listed)) (r : Request)
    (hsearch : r.read = none) (hscan : r.validateScopeOnly = false) (w : World σ φ)
    (htime : ∀ s, (os.now s).1 < (os.now w.os).1 + r.deadlineMs * 1000000) {success : Success}
    (hrun : (search engine os root r w).1 = .ok success) (hcomplete : success.coverage = .complete)
    {hit : Hit} (hhit : hit ∈ success.hits) (hlength : hit.range.stop - hit.range.start ≤ 4096)
    {σ' φ' : Type} {os' : Os σ' φ'} {root' : φ'} (st' : Static os' (.dir listed) root') {r' : Request}
    {read : ReadRequest} (h : ReadLike r r' read) (hpath : read.path = hit.path) (hrange : read.range = hit.range)
    (hdigest : ∀ digest, read.expectedFileSha256 = some digest → digest = hit.fileSha256)
    (hsize : 2048 + hit.size ≤ r'.responseBytes) (hvalid : validate r' = .ok ())
    (hpattern : (engine.matcher r'.pattern r'.kind r'.caseSensitive).isSome = true) (w' : World σ' φ')
    (htime' : ∀ s, (os'.now s).1 < (os'.now w'.os).1 + r'.deadlineMs * 1000000) :
    (search engine os' root' r' w').1.map Success.hits = .ok [hit] := by
  have hanswered := answeredWhole_of_complete st hdistinct hsearch htime hrun hcomplete
  obtain ⟨matcher, scope, -, hscope, hwhole, hsame⟩ := hanswered.answered
  have hfound : hit ∈ (wholeAnswer engine matcher scope.toFilter r (.dir listed)).hits := by
    rw [← hsame]
    exact hhit
  obtain ⟨bytes, hmem, hanswer⟩ :=
    readAnswer_hit hscan hwhole hfound hlength hpath hrange hdigest hsize
  rw [← hanswer]
  exact (read_of_whole st' hdistinct hscope hwhole h hvalid hpattern htime').1 bytes hmem

/-- The hit in the first of two files. -/
def firstHit : Hit := matchHit ['a'] (hex (Sha256.digest oneFileText)) oneFileText 1 2

theorem hit_verified_twoNames :
    (search Engine.plain (Node.os (.dir twoNames)) (.dir twoNames)
      (.readOf ⟨['a'], ⟨1, 2⟩, some (hex (Sha256.digest oneFileText))⟩) ⟨0, []⟩).1.map Success.hits = .ok [firstHit] := by
  have hfound : (search Engine.plain (Node.os (.dir twoNames)) (.dir twoNames) (.literal ['a']) ⟨0, []⟩).1.toOption.map
      (fun s => (s.coverage, decide (firstHit ∈ s.hits))) = some (.complete, true) := by decide +kernel
  rcases hrun : (search Engine.plain (Node.os (.dir twoNames)) (.dir twoNames) (.literal ['a']) ⟨0, []⟩).1
    with code | success
  · rw [hrun] at hfound
    cases hfound
  · rw [hrun] at hfound
    obtain ⟨hcomplete, hmem⟩ := Prod.mk.inj (Option.some.inj hfound)
    exact hit_verified Engine.plain (Node.static (.dir twoNames)) distinct_twoNames (.literal ['a']) rfl rfl ⟨0, []⟩
      (fun _ => Nat.zero_lt_succ _) hrun hcomplete (of_decide_eq_true hmem) (by decide)
      (Node.static (.dir twoNames)) (readLike_readOf _) rfl rfl (fun digest h => (Option.some.inj h).symm)
      (by decide +kernel) (by decide +kernel) rfl ⟨0, []⟩ fun _ => Nat.zero_lt_succ _

end JevGrep.Worker
