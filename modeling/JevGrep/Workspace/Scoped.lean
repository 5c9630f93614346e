/-
# `JevGrep.Workspace.Scoped` — no evidence out of scope.

A policy and a narrowing become the scope of a worker request, the worker turns the scope into globs,
and the walk asks them, with the ignore files it captured, about every directory on the way to a file
and about the file. §1 what a policy says of a path; §2 the scope of a request; §3 the hits of a
success.
-/
import Mathlib.Tactic.Choose
import JevGrep.Client.Carriage
import JevGrep.Worker.Passed
import JevGrep.Workspace.Policy

namespace JevGrep.Workspace

open JevGrep.Lib JevGrep.Lib.Utf16 JevGrep.Lib.Schema
open JevGrep.Contracts (JsString)
open JevGrep.Client (WorkerScope)
open JevGrep.Worker (Bytes Str Engine Filter Verdict Compiled Rules containing child gitignoreOf
  GITIGNORE IGNORE)

/-! ## §1 — what a policy says of a path. -/

/-- The first verdict that says something. -/
def firstDecisive : List Verdict → Verdict
  | [] => .none
  | .none :: rest => firstDecisive rest
  | verdict :: _ => verdict

/-- The verdicts on a path of the captured `.ignore` files from its directory up to the root, and of
the `.gitignore` files behind them. -/
def verdicts (engine : Engine) (gitignore ignore : Str → Option Bytes) (path : Str)
    (directory : Bool) : List Verdict :=
  (containing path).map (fun d => engine.matched (gitignoreOf d (ignore d)) path directory)
    ++ (containing path).map fun d => engine.matched (gitignoreOf d (gitignore d)) path directory

/-- A path was asked about, with the rules of every directory above it as captured, and they do not
ignore it. -/
def NotIgnored {φ : Type} (engine : Engine) (log : List (Worker.Event φ)) (path : Str) (directory : Bool) :
    Prop :=
  ∃ (rules : Rules) (gitignore ignore : Str → Option Bytes),
    Worker.Event.checked path directory rules ∈ log ∧
    (∀ d ∈ containing path, Worker.Event.policy (child d GITIGNORE) (gitignore d) ∈ log ∧
      Worker.Event.policy (child d IGNORE) (ignore d) ∈ log ∧
      rules d = some ⟨gitignoreOf d (gitignore d), gitignoreOf d (ignore d)⟩) ∧
    firstDecisive (verdicts engine gitignore ignore path directory) ≠ .ignore

/-- A file and the directories it lies in, without the root. -/
def lineage (path : Str) : List (Str × Bool) :=
  (path, false) :: ((containing path).filter (· ≠ [])).map fun d => (d, true)

/-- A file that a policy and a narrowing let a search see. -/
structure InPolicy {φ : Type} (engine : Engine) (policy : Policy) (narrow : Narrow)
    (log : List (Worker.Event φ)) (path : Str) : Prop where
  valid : Worker.validPath path = true
  reserved : ∀ part ∈ path.splitOn '/', part ≠ ".git".toList ∧ part ≠ ".jev-grep".toList
  shown : policy.hidden = false → ∀ part ∈ path.splitOn '/', part.head? ≠ some '.'
  excluded : ∀ glob : Str, encode glob ∈ policy.exclude ∨ encode glob ∈ narrow.exclude →
    ∀ p ∈ lineage path, engine.globMatch glob p.1 = false
  included : policy.includes ≠ [] →
    ∃ glob : Str, encode glob ∈ policy.includes ∧ engine.globMatch glob path = true
  narrowed : narrow.includes ≠ [] →
    ∃ glob : Str, encode glob ∈ narrow.includes ∧ engine.globMatch glob path = true
  notIgnored : policy.respectIgnore = true → ∀ p ∈ lineage path, NotIgnored engine log p.1 p.2

/-! ## §2 — the scope of a request. -/

/-- A verdict as `allows` returns it. -/
def decided : Verdict → Option Bool
  | .none => none
  | .ignore => some false
  | .whitelist => some true

theorem decided_firstDecisive_append (l' : List Verdict) : ∀ l : List Verdict,
    decided (firstDecisive (l ++ l')) = (decided (firstDecisive l) <|> decided (firstDecisive l'))
  | [] => rfl
  | .none :: rest => decided_firstDecisive_append l' rest
  | .ignore :: _ => rfl
  | .whitelist :: _ => rfl

theorem ruling_eq (engine : Engine) {rules : Rules} {kind : Compiled → Worker.Gitignore}
    {path dir : Str} {directory : Bool} {g : Worker.Gitignore} (h : (rules dir).map kind = some g) :
    Worker.ruling engine rules kind path directory dir = decided (engine.matched g path directory) := by
  obtain ⟨compiled, hc, rfl⟩ := Option.map_eq_some_iff.1 h
  rw [Worker.ruling, hc]
  cases hm : engine.matched (kind compiled) path directory <;> simp [hm, decided]

/-- One loop of `allows`, over directories whose rules are loaded. -/
theorem findSome_ruling (engine : Engine) {rules : Rules} {kind : Compiled → Worker.Gitignore}
    {path : Str} {directory : Bool} {g : Str → Worker.Gitignore} : ∀ dirs : List Str,
    (∀ d ∈ dirs, (rules d).map kind = some (g d)) →
      dirs.findSome? (Worker.ruling engine rules kind path directory)
        = decided (firstDecisive (dirs.map fun d => engine.matched (g d) path directory))
  | [], _ => rfl
  | d :: rest, h => by
      have ih : rest.findSome? (Worker.ruling engine rules kind path directory) = decided _ :=
        findSome_ruling engine rest fun x hx => h x (List.mem_cons_of_mem d hx)
      rw [List.findSome?_cons, List.map_cons, ruling_eq engine (h d List.mem_cons_self)]
      cases engine.matched (g d) path directory with
      | none => exact ih
      | ignore => rfl
      | whitelist => rfl

/-- With the rules of every directory loaded, `allows` decides by the first decisive verdict. -/
theorem decision_eq (engine : Engine) {rules : Rules} {gitignore ignore : Str → Option Bytes}
    {path : Str} {directory : Bool} (h : ∀ d ∈ containing path,
      rules d = some ⟨gitignoreOf d (gitignore d), gitignoreOf d (ignore d)⟩) :
    Worker.decision engine rules path directory
      = decided (firstDecisive (verdicts engine gitignore ignore path directory)) := by
  have hignore : ∀ d ∈ containing path, (rules d).map (·.ignore) = some (gitignoreOf d (ignore d)) :=
    fun d hd => by rw [h d hd]; rfl
  have hgitignore : ∀ d ∈ containing path,
      (rules d).map (·.gitignore) = some (gitignoreOf d (gitignore d)) :=
    fun d hd => by rw [h d hd]; rfl
  rw [Worker.decision, findSome_ruling engine _ hignore, findSome_ruling engine _ hgitignore, verdicts,
    decided_firstDecisive_append]

/-! ## §3 — the hits of a success. -/

section Allowed

variable {φ : Type} {engine : Engine} {filter : Filter} {log : List (Worker.Event φ)} {path : Str}
  {directory : Bool}

theorem allowed_not_excluded (h : Worker.Allowed engine filter log path directory) :
    ∀ glob ∈ filter.exclude, engine.globMatch glob path = false := by
  obtain ⟨rules, -, hallowed, -⟩ := h
  unfold Filter.allowsUnder at hallowed
  split at hallowed
  case isTrue => cases hallowed
  case isFalse hexclude =>
    intro glob hglob
    rw [Worker.GlobSet.isMatch, List.any_eq_true] at hexclude
    rw [← Bool.not_eq_true]
    exact fun hmatch => hexclude ⟨glob, hglob, hmatch⟩

theorem allowed_included (h : Worker.Allowed engine filter log path false) {group : Worker.GlobSet}
    (hgroup : group ∈ filter.groups) (hne : group ≠ []) :
    ∃ glob ∈ group, engine.globMatch glob path = true := by
  obtain ⟨rules, -, hallowed, -⟩ := h
  unfold Filter.allowsUnder at hallowed
  split at hallowed
  case isTrue => cases hallowed
  case isFalse =>
    split at hallowed
    case isTrue => cases hallowed
    case isFalse hgroups =>
      rw [Bool.not_false, Bool.true_and, List.any_eq_true, not_exists] at hgroups
      have hmatch := hgroups group
      rw [not_and] at hmatch
      have hm := hmatch hgroup
      rw [Bool.and_eq_true, not_and, Bool.not_eq_true, Bool.not_eq_false'] at hm
      have hsome := hm (by simpa using hne)
      rwa [Worker.GlobSet.isMatch, List.any_eq_true] at hsome

theorem allowed_notIgnored (h : Worker.Allowed engine filter log path directory)
    (hon : filter.respectIgnore = true) : NotIgnored engine log path directory := by
  obtain ⟨rules, hchecked, hallowed, hloaded⟩ := h
  have hfiles : ∀ d, ∃ gitignore ignore : Option Bytes, d ∈ containing path →
      Worker.Event.policy (child d GITIGNORE) gitignore ∈ log ∧
        Worker.Event.policy (child d IGNORE) ignore ∈ log ∧ rules d = some ⟨gitignoreOf d gitignore, gitignoreOf d ignore⟩ := by
    intro d
    by_cases hd : d ∈ containing path
    · obtain ⟨compiled, hc, g, i, hg, hi, rfl⟩ := hloaded hon d hd
      exact ⟨g, i, fun _ => ⟨hg, hi, hc⟩⟩
    · exact ⟨none, none, fun h => absurd h hd⟩
  choose gitignore ignore hfiles using hfiles
  refine ⟨rules, gitignore, ignore, hchecked, hfiles, fun hignored => ?_⟩
  -- an ignoring verdict would have been the decision
  have hdecision : Worker.decision engine rules path directory = decided _ :=
    decision_eq engine fun d hd => (hfiles d hd).2.2
  rw [hignored] at hdecision
  unfold Filter.allowsUnder at hallowed
  split at hallowed
  case isTrue => cases hallowed
  case isFalse =>
    split at hallowed
    case isTrue => cases hallowed
    case isFalse =>
      rw [hdecision] at hallowed
      cases hallowed

end Allowed

/-- Both scopes of a path's lineage were allowed. -/
theorem passed_lineage {φ : Type} {engine : Engine} {filter : Filter} {log : List (Worker.Event φ)}
    {path : Str} (h : Worker.Passed engine filter log path) :
    ∀ p ∈ lineage path, Worker.Allowed engine filter log p.1 p.2 := by
  intro p hp
  rcases List.mem_cons.1 hp with rfl | hp
  · exact h.file
  · obtain ⟨d, hd, rfl⟩ := List.mem_map.1 hp
    rw [List.mem_filter, decide_eq_true_eq] at hd
    exact h.above d hd.1 hd.2

/-- What passed the scope of a narrowed policy is in the policy. -/
theorem inPolicy_of_passed {φ : Type} {engine : Engine} {policy : Policy} {narrow : Narrow}
    {input : Worker.ScopeInput} {scope : Worker.Scope} {log : List (Worker.Event φ)} {path : Str}
    (hinput : WorkerScope.ofInput input = narrowPolicy policy narrow)
    (hscope : Worker.Scope.new engine input = .ok scope)
    (h : Worker.Passed engine scope.toFilter log path) : InPolicy engine policy narrow log path := by
  rw [Worker.new_filter hscope] at h
  obtain ⟨hgroups, hexclude, hhidden, hrespect⟩ := WorkerScope.mk.inj hinput
  have hshown : ∀ part ∈ path.splitOn '/', (part = ".jev-grep".toList ∨ part = ".git".toList ∨
      (input.hidden = false ∧ part.head? = some '.')) → False := by
    intro part hpart hbad
    have hs := h.shown
    rw [Filter.excludedPath, List.any_eq_false] at hs
    apply hs part hpart
    rcases hbad with rfl | rfl | ⟨hh, hdot⟩
    · rfl
    · rfl
    · simp [hh, hdot]
  have hgroup : ∀ group : List JsString, group ∈ [policy.includes, canonicalPatterns narrow.includes] →
      group ≠ [] → ∃ glob : Str, encode glob ∈ group ∧ engine.globMatch glob path = true := by
    intro group hmem hne
    rw [← hgroups] at hmem
    obtain ⟨set, hset, rfl⟩ := List.mem_map.1 hmem
    have hne' : set ≠ [] := fun hnil => hne (by rw [hnil, List.map_nil])
    obtain ⟨glob, hglob, hmatch⟩ := allowed_included h.file hset hne'
    exact ⟨glob, List.mem_map_of_mem hglob, hmatch⟩
  constructor
  case valid => exact h.valid
  case reserved =>
    exact fun part hpart => ⟨fun heq => hshown part hpart (.inr (.inl heq)),
      fun heq => hshown part hpart (.inl heq)⟩
  case shown =>
    intro hoff part hpart hdot
    exact hshown part hpart (.inr (.inr ⟨hhidden.trans hoff, hdot⟩))
  case excluded =>
    intro glob hglob p hp
    apply allowed_not_excluded (passed_lineage h p hp)
    have hmem : encode glob ∈ input.exclude.map encode := by
      rw [hexclude, mem_canonicalPatterns]
      exact List.mem_append.2 hglob
    obtain ⟨glob', hglob', heq⟩ := List.mem_map.1 hmem
    rwa [← encode_injective heq]
  case included =>
    exact fun hne => hgroup _ List.mem_cons_self hne
  case narrowed =>
    intro hne
    obtain ⟨glob, hglob, hmatch⟩ := hgroup (canonicalPatterns narrow.includes)
      (List.mem_cons_of_mem _ List.mem_cons_self) fun hnil => hne (canonicalPatterns_eq_nil.1 hnil)
    exact ⟨glob, mem_canonicalPatterns.1 hglob, hmatch⟩
  case notIgnored =>
    exact fun hon p hp => allowed_notIgnored (passed_lineage h p hp) (hrespect.trans hon)

/-- **No evidence out of scope**: whatever the system answers, every hit of a success for a narrowed
policy is a file that the policy and the narrowing let it see. -/
theorem hits_inPolicy {σ φ : Type} {engine : Engine} {os : Worker.Os σ φ} {root : φ}
    {r : Worker.Request} {policy : Policy} {narrow : Narrow} {state : σ} {w' : Worker.World σ φ}
    {success : Worker.Success} (hscope : WorkerScope.ofInput r.scope = narrowPolicy policy narrow)
    (h : Worker.search engine os root r ⟨state, []⟩ = (.ok success, w')) :
    ∀ hit ∈ success.hits, InPolicy engine policy narrow w'.log hit.path := by
  obtain ⟨scope, hnew, hpassed⟩ := Worker.search_passed h
  exact fun hit hh => inPolicy_of_passed hscope hnew (hpassed hit hh)

/-- A policy that lets one file be seen, and a narrowing that takes another away. -/
def onlyA : Policy := ⟨[units "a"], [units "b"], false, true, 100⟩

/-- A narrowing that excludes `c`. -/
def notC : Narrow := ⟨[], [units "c"]⟩

/-- The request a registration sends under it. -/
def onlyARequest : Worker.Request :=
  { Worker.Request.literal ['a'] with
    scope :=
      { includeGroups := [[['a']], []], exclude := [['b'], ['c']], hidden := false, respectIgnore := true } }

theorem hits_inPolicy_onlyA : ∃ success w',
    Worker.search Engine.plain Worker.oneFile.os Worker.oneFile onlyARequest ⟨0, []⟩ = (.ok success, w') ∧
      success.hits.map (·.path) = [['a']] ∧
        ∀ hit ∈ success.hits, InPolicy Engine.plain onlyA notC w'.log hit.path := by
  have hscope : WorkerScope.ofInput onlyARequest.scope = narrowPolicy onlyA notC := by decide +kernel
  have hrun : (Worker.search Engine.plain Worker.oneFile.os Worker.oneFile onlyARequest
      ⟨0, []⟩).1.toOption.map (fun s => s.hits.map (·.path)) = some [['a']] := by decide +kernel
  rcases h : Worker.search Engine.plain Worker.oneFile.os Worker.oneFile onlyARequest ⟨0, []⟩
    with ⟨e | success, w'⟩
  · rw [h] at hrun
    cases hrun
  · rw [h] at hrun
    exact ⟨success, w', rfl, Option.some.inj hrun, hits_inPolicy hscope h⟩

end JevGrep.Workspace
