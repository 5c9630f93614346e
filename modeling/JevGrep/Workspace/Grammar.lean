/-
# `JevGrep.Workspace.Grammar` — one grammar of patterns.

A pattern is checked three times: against the policy schemas, in UTF-16 code units and bytes; against
the schema of worker requests, in code units alone; and by `globs` in the worker, in bytes and
characters. The first check decides: what passes it passes the other two, alone and in the lists that a
narrowing makes. §1 the checks of one pattern; §2 lists; §3 the scope of a narrowed policy.
-/
import JevGrep.Workspace.Scoped

namespace JevGrep.Workspace

open JevGrep.Lib JevGrep.Lib.Schema
open JevGrep.Lib.Utf16
open JevGrep.Contracts (JsString)
open JevGrep.Client (WorkerScope globPatterns strings objectOf workerScopeSchema)
open JevGrep.Worker (Str Engine ScopeInput badGlob)

/-! ## §1 — the checks of one pattern. -/

theorem encodeChar_ne_nil (c : Char) : Utf16.encodeChar c ≠ [] := by
  rw [Utf16.encodeChar]
  split
  · exact List.cons_ne_nil _ _
  · exact List.cons_ne_nil _ _

/-- A string starts with a character where its code units do. -/
theorem head_encode {c : Char} (hc : c.toNat < 0xD800) (p : Str) :
    (encode p).head? = some (unit c) ↔ p.head? = some c := by
  cases p with
  | nil =>
    constructor
    · intro h
      cases h
    · intro h
      cases h
  | cons d ds =>
    rw [encode_cons, List.head?_cons, Option.some.injEq]
    constructor
    · intro h
      rcases hd : Utf16.encodeChar d with _ | ⟨u, us⟩
      · exact absurd hd (encodeChar_ne_nil d)
      · rw [hd] at h
        -- the first unit of `d` is the only one of `c`
        have hu : unit c ∈ Utf16.encodeChar d := by
          rw [hd, ← Option.some.inj h]
          exact List.mem_cons_self
        exact ((unit_mem_encodeChar hc).1 hu).symm
    · rintro rfl
      rw [encodeChar_self hc]
      rfl

/-- The forbidden code units are the forbidden characters. -/
theorem any_forbiddenUnit (p : Str) : (encode p).any forbiddenUnit = true ↔
    p.any (fun c => c == '\x00' || c == '\r' || c == '\n' || c == '\\') = true := by
  have hmem : ∀ {c : Char}, c.toNat < 0xD800 → (unit c ∈ encode p ↔ c ∈ p) := fun hc => unit_mem_encode hc
  have hslash := hmem (c := '\\') (by decide)
  have hnul := hmem (c := '\x00') (by decide)
  have hcr := hmem (c := '\r') (by decide)
  have hlf := hmem (c := '\n') (by decide)
  rw [List.any_eq_true, List.any_eq_true]
  simp only [forbiddenUnit, Bool.or_eq_true, beq_iff_eq]
  constructor
  · rintro ⟨u, hu, ((rfl | rfl) | rfl) | rfl⟩
    · exact ⟨_, hslash.1 hu, .inr rfl⟩
    · exact ⟨_, hnul.1 hu, .inl (.inl (.inl rfl))⟩
    · exact ⟨_, hcr.1 hu, .inl (.inl (.inr rfl))⟩
    · exact ⟨_, hlf.1 hu, .inl (.inr rfl)⟩
  · rintro ⟨c, hc, ((rfl | rfl) | rfl) | rfl⟩
    · exact ⟨_, hnul.2 hc, .inl (.inl (.inr rfl))⟩
    · exact ⟨_, hcr.2 hc, .inl (.inr rfl)⟩
    · exact ⟨_, hlf.2 hc, .inr rfl⟩
    · exact ⟨_, hslash.2 hc, .inl (.inl (.inl rfl))⟩

/-- The components that neither check takes. -/
theorem any_component (p : Str) :
    ((encode p).splitOn (unit '/')).any (fun s => s == [] || s == units "." || s == units "..") = true ↔
      (p.splitOn '/').any (fun s => s == ['.'] || s == ['.', '.'] || s.isEmpty) = true := by
  have hdot : ∀ s : Str, encode s = units "." ↔ s = ['.'] := fun s =>
    ⟨fun h => encode_injective h, fun h => by rw [h]; rfl⟩
  have hdots : ∀ s : Str, encode s = units ".." ↔ s = ['.', '.'] := fun s =>
    ⟨fun h => encode_injective h, fun h => by rw [h]; rfl⟩
  rw [splitOn_encode (by decide), List.any_map, List.any_eq_true, List.any_eq_true]
  refine exists_congr fun s => and_congr_right fun _ => ?_
  simp only [Function.comp_apply, Bool.or_eq_true, beq_iff_eq, encode_eq_nil, hdot, hdots,
    List.isEmpty_iff]
  tauto

/-- **The two pattern checks agree on every well-formed string.** -/
theorem isPattern_encode (p : Str) : isPattern (encode p) = true ↔ badGlob p = false := by
  have hlength := length_encode_le p
  have hempty : 1 ≤ (encode p).length ↔ p.isEmpty = false := by
    rw [Nat.one_le_iff_ne_zero, Ne, List.length_eq_zero_iff, encode_eq_nil, List.isEmpty_eq_false_iff]
  have hfirst : ∀ {c : Char}, c.toNat < 0xD800 →
      ((encode p).head? == some (unit c)) = (p.head? == some c) := fun hc => by
    rw [Bool.eq_iff_iff, beq_iff_eq, beq_iff_eq]
    exact head_encode hc p
  have hunits : (encode p).any forbiddenUnit
      = p.any (fun c => c == '\x00' || c == '\r' || c == '\n' || c == '\\') := by
    rw [Bool.eq_iff_iff]
    exact any_forbiddenUnit p
  have hcomponents : ((encode p).splitOn (unit '/')).any
      (fun s => s == [] || s == units "." || s == units "..")
        = (p.splitOn '/').any (fun s => s == ['.'] || s == ['.', '.'] || s.isEmpty) := by
    rw [Bool.eq_iff_iff]
    exact any_component p
  rw [isPattern, badGlob, isWellFormed_encode, byteLength_encode, hfirst (by decide), hfirst (by decide),
    hunits, hcomponents]
  simp only [Bool.and_eq_true, decide_eq_true_iff, Bool.not_eq_true', Bool.or_eq_false_iff,
    decide_eq_false_iff_not, hempty]
  constructor
  · rintro ⟨⟨⟨⟨⟨hne, -⟩, -⟩, hbytes⟩, ⟨hbang, hslash⟩, hunit⟩, hcomponent⟩
    exact ⟨⟨⟨⟨⟨hne, by omega⟩, hslash⟩, hbang⟩, hunit⟩, hcomponent⟩
  · rintro ⟨⟨⟨⟨⟨hne, hbytes⟩, hslash⟩, hbang⟩, hunit⟩, hcomponent⟩
    exact ⟨⟨⟨⟨⟨hne, by omega⟩, trivial⟩, by omega⟩, ⟨hbang, hslash⟩, hunit⟩, hcomponent⟩

/-! ## §2 — lists. -/

/-- What `patterns` lets through. -/
structure Patterns (most : Nat) (items : List JsString) : Prop where
  length : items.length ≤ most
  each : ∀ p ∈ items, isPattern p = true

theorem patterns_nil (most : Nat) : Patterns most [] := ⟨Nat.zero_le _, fun p hp => by cases hp⟩

theorem patterns_of_schema {v : Json} {items : List JsString} (h : patternsSchema v = some items) :
    Patterns 64 items := by
  obtain ⟨hlength, hall⟩ := array_some h
  refine ⟨hlength, fun p hp => ?_⟩
  obtain ⟨v, hv⟩ := hall p hp
  exact (Option.filter_eq_some_iff.1 hv).2

theorem Patterns.canonical {most : Nat} {items : List JsString} (h : Patterns most items) :
    Patterns most (canonicalPatterns items) :=
  ⟨(length_canonicalPatterns_le items).trans h.length, fun p hp => h.each p (mem_canonicalPatterns.1 hp)⟩

theorem Patterns.append {most most' : Nat} {items items' : List JsString} (h : Patterns most items)
    (h' : Patterns most' items') : Patterns (most + most') (items ++ items') := by
  refine ⟨?_, fun p hp => ?_⟩
  · rw [List.length_append]
    exact Nat.add_le_add h.length h'.length
  · rcases List.mem_append.1 hp with hp | hp
    · exact h.each p hp
    · exact h'.each p hp

/-- A member that is absent has its default. -/
theorem withDefault_some {α : Type} {members : List (List UInt16 × Json)} {name : String} {default a : α}
    {read : Json → Option α} (h : withDefault members name default read = some a) :
    a = default ∨ ∃ v, read v = some a := by
  obtain ⟨read?, hread, rfl⟩ := Option.map_eq_some_iff.1 h
  unfold Schema.optional at hread
  split at hread
  · cases hread
    exact .inl rfl
  · obtain ⟨b, hb, rfl⟩ := Option.map_eq_some_iff.1 hread
    exact .inr ⟨_, hb⟩

theorem withDefault_patterns {members : List (List UInt16 × Json)} {name : String}
    {items : List JsString} (h : withDefault members name [] patternsSchema = some items) :
    Patterns 64 items := by
  rcases withDefault_some h with rfl | ⟨v, hv⟩
  · exact patterns_nil 64
  · exact patterns_of_schema hv

theorem required_patterns {members : List (List UInt16 × Json)} {name : String} {items : List JsString}
    (h : required members name patternsSchema = some items) : Patterns 64 items := by
  obtain ⟨v, -, hv⟩ := Option.bind_eq_some_iff.1 h
  exact patterns_of_schema hv

/-- The lists of a policy that `createPolicy` returns. -/
theorem patterns_of_createPolicy {input : Json} {policy : Policy} (h : createPolicy input = some policy) :
    Patterns 64 policy.includes ∧ Patterns 64 policy.exclude := by
  obtain ⟨parsed, hparsed, rfl⟩ := Option.map_eq_some_iff.1 h
  obtain ⟨o, -, h⟩ := bind_some hparsed
  obtain ⟨includes, hincludes, h⟩ := bind_some h
  obtain ⟨exclude, hexclude, h⟩ := bind_some h
  obtain ⟨hidden, -, h⟩ := bind_some h
  obtain ⟨respectIgnore, -, h⟩ := bind_some h
  obtain ⟨maxFileBytes, -, h⟩ := bind_some h
  cases h
  exact ⟨(withDefault_patterns hincludes).canonical, (withDefault_patterns hexclude).canonical⟩

theorem patterns_of_narrowSchema {v : Json} {narrow : Narrow} (h : narrowSchema v = some narrow) :
    Patterns 64 narrow.includes ∧ Patterns 64 narrow.exclude := by
  obtain ⟨o, -, h⟩ := bind_some h
  obtain ⟨includes, hincludes, h⟩ := bind_some h
  obtain ⟨exclude, hexclude, h⟩ := bind_some h
  cases h
  exact ⟨required_patterns hincludes, required_patterns hexclude⟩

/-! ## §3 — the scope of a narrowed policy. -/

/-- What `Scope::new` checks before it compiles a glob. -/
structure Formed (input : ScopeInput) : Prop where
  groups : input.includeGroups.length ≤ 2
  group : ∀ g ∈ input.includeGroups, g.length ≤ 64
  exclude : input.exclude.length ≤ 128
  glob : ∀ g ∈ input.exclude :: input.includeGroups, ∀ p ∈ g, badGlob p = false

/-- A glob of the scope does not compile, alone or in its set. -/
def GlobFails (engine : Engine) (input : ScopeInput) : Prop :=
  ∃ g ∈ input.exclude :: input.includeGroups,
    (∃ p ∈ g, engine.globBuild p = false) ∨ engine.globSetBuild g = false

/-- Patterns are the code units of strings. -/
theorem exists_strings : ∀ {items : List JsString}, (∀ p ∈ items, isPattern p = true) →
    ∃ strs : List Str, strs.map encode = items ∧ ∀ s ∈ strs, badGlob s = false
  | [], _ => ⟨[], rfl, fun s hs => by cases hs⟩
  | p :: items, h => by
      obtain ⟨strs, rfl, hbad⟩ := exists_strings fun q hq => h q (List.mem_cons_of_mem _ hq)
      have hp := h p List.mem_cons_self
      have hformed : isWellFormed p = true := by
        simp only [isPattern, Bool.and_eq_true] at hp
        exact hp.1.1.1.2
      obtain ⟨s, rfl⟩ := isWellFormed_iff.1 hformed
      refine ⟨s :: strs, rfl, fun t ht => ?_⟩
      rcases List.mem_cons.1 ht with rfl | ht
      · exact (isPattern_encode _).1 hp
      · exact hbad t ht

theorem globs_error {engine : Engine} {patterns : List Str} {code : Worker.Code}
    (hlength : patterns.length ≤ 128) (hbad : ∀ p ∈ patterns, badGlob p = false)
    (h : Worker.globs engine patterns = .error code) :
    (∃ p ∈ patterns, engine.globBuild p = false) ∨ engine.globSetBuild patterns = false := by
  rw [Worker.globs, if_neg (Nat.not_lt.2 hlength)] at h
  split at h
  case isTrue hany =>
    obtain ⟨p, hp, hfails⟩ := List.any_eq_true.1 hany
    rw [hbad p hp, Bool.false_or, Bool.not_eq_true'] at hfails
    exact .inl ⟨p, hp, hfails⟩
  case isFalse =>
    split at h
    case isTrue => cases h
    case isFalse hset => exact .inr (eq_false_of_ne_true hset)

theorem mapM_globs_error {engine : Engine} {code : Worker.Code} : ∀ {groups : List (List Str)},
    groups.mapM (Worker.globs engine) = .error code → ∃ g ∈ groups, ∃ code, Worker.globs engine g = .error code
  | [], h => by cases h
  | g :: groups, h => by
      rw [List.mapM_cons] at h
      rcases hg : Worker.globs engine g with code' | set
      · exact ⟨g, List.mem_cons_self, code', hg⟩
      · rw [hg] at h
        rcases hrest : groups.mapM (Worker.globs engine) with code' | sets
        · obtain ⟨g', hg', hfails⟩ := mapM_globs_error hrest
          exact ⟨g', List.mem_cons_of_mem _ hg', hfails⟩
        · rw [hrest] at h
          cases h

/-- A scope that is formed is refused only because a glob does not compile. -/
theorem Formed.error {engine : Engine} {input : ScopeInput} {code : Worker.Code} (hf : Formed input)
    (h : Worker.Scope.new engine input = .error code) : GlobFails engine input := by
  have hlong : ∀ g ∈ input.exclude :: input.includeGroups, g.length ≤ 128 := by
    intro g hg
    rcases List.mem_cons.1 hg with rfl | hg
    · exact hf.exclude
    · exact (hf.group g hg).trans (by decide)
  have hfails : ∀ g ∈ input.exclude :: input.includeGroups, ∀ code,
      Worker.globs engine g = .error code → GlobFails engine input := fun g hg code he =>
    ⟨g, hg, globs_error (hlong g hg) (hf.glob g hg) he⟩
  have hcounts : ¬(decide (input.includeGroups.length > 2)
      || input.includeGroups.any fun g => decide (g.length > 64)) = true := by
    rw [Bool.or_eq_true, decide_eq_true_iff, List.any_eq_true]
    rintro (hmany | ⟨g, hg, hmany⟩)
    · exact absurd hf.groups (Nat.not_le.2 hmany)
    · exact absurd (hf.group g hg) (Nat.not_le.2 (of_decide_eq_true hmany))
  rw [Worker.Scope.new, if_neg hcounts] at h
  rcases hg : input.includeGroups.mapM (Worker.globs engine) with code' | groups
  · obtain ⟨g, hmem, code'', he⟩ := mapM_globs_error hg
    exact hfails g (List.mem_cons_of_mem _ hmem) _ he
  · rw [hg] at h
    rcases he : Worker.globs engine input.exclude with code' | exclude
    · exact hfails _ List.mem_cons_self _ he
    · rw [he] at h
      cases h

theorem boundedString_pattern {p : JsString} (h : isPattern p = true) :
    boundedString 1 1024 (.str p) = some p := by
  simp only [isPattern, Bool.and_eq_true] at h
  have hlength : (decide (1 ≤ p.length) && decide (p.length ≤ 1024)) = true := by
    rw [Bool.and_eq_true]
    exact ⟨h.1.1.1.1.1, h.1.1.1.1.2⟩
  rw [boundedString, string, Option.filter_some, if_pos hlength]

/-- A list of patterns is read back. -/
theorem array_strings {most : Nat} {items : List JsString} (h : Patterns most items) :
    array (boundedString 1 1024) most (strings items) = some items := by
  have hread : array (boundedString 1 1024) most (.arr (items.map .str)) = some (items.map id) :=
    array_map h.length fun p hp => boundedString_pattern (h.each p hp)
  rwa [List.map_id] at hread

theorem workerScopeSchema_json {s : WorkerScope} (hgroups : s.includeGroups.length ≤ 2)
    (hgroup : ∀ g ∈ s.includeGroups, Patterns 64 g) (hexclude : Patterns 128 s.exclude) :
    workerScopeSchema s.json = some s := by
  have hjson : s.json = .obj (named [("includeGroups", .arr (s.includeGroups.map strings)),
      ("exclude", strings s.exclude), ("hidden", .bool s.hidden),
      ("respectIgnore", .bool s.respectIgnore)]) := rfl
  have hread : array globPatterns 2 (.arr (s.includeGroups.map strings)) = some s.includeGroups := by
    have harray : array globPatterns 2 (.arr (s.includeGroups.map strings)) = some (s.includeGroups.map id) :=
      array_map hgroups fun g hg => array_strings (hgroup g hg)
    rwa [List.map_id] at harray
  have hflag : ∀ b : Bool, Schema.bool (.bool b) = some b := fun _ => rfl
  rw [hjson]
  refine some_bind (strictObject_named (by simp)) ?_
  refine some_bind (required_named (by simp) (by simp) hread) ?_
  refine some_bind (required_named (by simp) (by simp) (array_strings hexclude)) ?_
  refine some_bind (required_named (by simp) (by simp) (hflag s.hidden)) ?_
  exact some_bind (required_named (by simp) (by simp) (hflag s.respectIgnore)) rfl

/-- The lists of a narrowed policy. -/
theorem patterns_of_narrowPolicy {input v : Json} {policy : Policy} {narrow : Narrow}
    (hpolicy : createPolicy input = some policy) (hnarrow : narrowSchema v = some narrow) :
    (∀ g ∈ (narrowPolicy policy narrow).includeGroups, Patterns 64 g)
      ∧ Patterns 128 (narrowPolicy policy narrow).exclude := by
  obtain ⟨hincludes, hexclude⟩ := patterns_of_createPolicy hpolicy
  obtain ⟨hincludes', hexclude'⟩ := patterns_of_narrowSchema hnarrow
  constructor
  · intro g hg
    rcases List.mem_cons.1 hg with rfl | hg
    · exact hincludes
    · rw [List.mem_singleton.1 hg]
      exact hincludes'.canonical
  · -- the union has at most the items of both lists
    exact (hexclude.append hexclude').canonical

/-- The worker's form of a scope of patterns. -/
theorem exists_scopeInput {s : WorkerScope} (hgroups : s.includeGroups.length ≤ 2)
    (hgroup : ∀ g ∈ s.includeGroups, Patterns 64 g) (hexclude : Patterns 128 s.exclude) :
    ∃ input, WorkerScope.ofInput input = s ∧ Formed input := by
  have hall : ∀ {groups : List (List JsString)}, (∀ g ∈ groups, Patterns 64 g) →
      ∃ sets : List (List Str), sets.map (·.map encode) = groups ∧
        ∀ g ∈ sets, g.length ≤ 64 ∧ ∀ p ∈ g, badGlob p = false := by
    intro groups
    induction groups with
    | nil => exact fun _ => ⟨[], rfl, fun g hg => by cases hg⟩
    | cons group groups ih =>
      intro h
      obtain ⟨sets, rfl, hsets⟩ := ih fun g hg => h g (List.mem_cons_of_mem _ hg)
      have hpatterns := h group List.mem_cons_self
      obtain ⟨strs, rfl, hbad⟩ := exists_strings hpatterns.each
      refine ⟨strs :: sets, rfl, fun g hg => ?_⟩
      rcases List.mem_cons.1 hg with rfl | hg
      · have hlength := hpatterns.length
        rw [List.length_map] at hlength
        exact ⟨hlength, hbad⟩
      · exact hsets g hg
  obtain ⟨sets, hsets, hgood⟩ := hall hgroup
  obtain ⟨exclude, hstrs, hbad⟩ := exists_strings hexclude.each
  refine ⟨⟨sets, exclude, s.hidden, s.respectIgnore⟩, ?_, ?_⟩
  · rw [WorkerScope.ofInput, hsets, hstrs]
  · have hcount : sets.length ≤ 2 := by
      rw [← hsets, List.length_map] at hgroups
      exact hgroups
    have hlength : exclude.length ≤ 128 := by
      have hle := hexclude.length
      rwa [← hstrs, List.length_map] at hle
    refine ⟨hcount, fun g hg => (hgood g hg).1, hlength, fun g hg => ?_⟩
    rcases List.mem_cons.1 hg with rfl | hg
    · exact hbad
    · exact (hgood g hg).2

/-- **The pattern grammars coincide**: the check of a policy takes the well-formed strings that the
worker takes, and the scope of a narrowed policy passes every check of the client and of the worker that
is not about the syntax of a glob. -/
theorem grammars_coincide : (∀ p : Str, isPattern (encode p) = true ↔ badGlob p = false) ∧
    ∀ (input v : Json) (policy : Policy) (narrow : Narrow), createPolicy input = some policy →
      narrowSchema v = some narrow →
        workerScopeSchema (narrowPolicy policy narrow).json = some (narrowPolicy policy narrow) ∧
          ∃ scope, Worker.deScopeInput (narrowPolicy policy narrow).json = some scope ∧
            WorkerScope.ofInput scope = narrowPolicy policy narrow ∧ Formed scope ∧
              ∀ engine code, Worker.Scope.new engine scope = .error code → GlobFails engine scope := by
  refine ⟨isPattern_encode, fun input v policy narrow hpolicy hnarrow => ?_⟩
  obtain ⟨hgroup, hexclude⟩ := patterns_of_narrowPolicy hpolicy hnarrow
  have hgroups : (narrowPolicy policy narrow).includeGroups.length ≤ 2 := Nat.le_refl 2
  obtain ⟨scope, hscope, hformed⟩ := exists_scopeInput hgroups hgroup hexclude
  refine ⟨workerScopeSchema_json hgroups hgroup hexclude, scope, ?_, hscope, hformed, ?_⟩
  · rw [← hscope]
    exact Client.deScopeInput_json scope
  · exact fun engine code h => hformed.error h

/-- A policy with an exclude, and a narrowing to a directory. -/
theorem grammars_coincide_src : ∃ scope,
    Worker.deScopeInput (narrowPolicy ⟨[], [units "**/*.min.js"], false, true, 1048576⟩
      ⟨[units "src/**"], []⟩).json = some scope ∧ Formed scope := by
  have hpolicy : createPolicy (.obj [(units "exclude", strings [units "**/*.min.js"])])
      = some ⟨[], [units "**/*.min.js"], false, true, 1048576⟩ := by decide +kernel
  have hnarrow : narrowSchema (.obj [(units "include", strings [units "src/**"]),
      (units "exclude", strings [])]) = some ⟨[units "src/**"], []⟩ := by decide +kernel
  obtain ⟨-, scope, hread, -, hformed, -⟩ := grammars_coincide.2 _ _ _ _ hpolicy hnarrow
  exact ⟨scope, hread, hformed⟩

end JevGrep.Workspace
