/-
# `JevGrep.Worker.Observed` — the ignore files a scope keeps.

`Scope::enter` records both ignore files of a directory, captured or absent, and bounds what it records:
the files by their bytes and lines, the records by their number. The number is looked at once for the
two records of a directory. §1 the records; §2 one ignore file; §3 `enter`; §4 a sequence of `enter`s;
§5 one directory that fails halfway, and one record too many.
-/
import JevGrep.Worker.Account
import JevGrep.Worker.Tree

namespace JevGrep.Worker

open JevGrep.Lib
open Exec (Triple)

variable {σ φ α β : Type}

/-! ## §1 — the records. -/

/-- What `f` says of the recorded files, added up. -/
def total (f : Option Bytes → Nat) : List (Str × Option Bytes) → Nat
  | [] => 0
  | (_, bytes) :: rest => f bytes + total f rest

/-- The bytes of an ignore file, none where it is absent. -/
def bytesIn (bytes : Option Bytes) : Nat := (bytes.getD []).length

/-- The lines of an ignore file. -/
def linesIn (bytes : Option Bytes) : Nat := (linesOf bytes).length

section Records

variable {f : Option Bytes → Nat} {path : Str} {bytes : Option Bytes}

theorem observe_cons (path : Str) (bytes : Option Bytes) (p : Str) (b : Option Bytes)
    (rest : List (Str × Option Bytes)) : observe path bytes ((p, b) :: rest) =
      if path = p then (path, bytes) :: rest
      else if path < p then (path, bytes) :: (p, b) :: rest
      else (p, b) :: observe path bytes rest := rfl

/-- A record that is replaced counts no more. -/
theorem total_observe : ∀ records : List (Str × Option Bytes),
    total f (observe path bytes records) ≤ total f records + f bytes
  | [] => by
      show f bytes + 0 ≤ 0 + f bytes
      omega
  | (p, b) :: rest => by
      have ih := total_observe rest
      rw [observe_cons]
      split
      case isTrue =>
        show f bytes + total f rest ≤ f b + total f rest + f bytes
        omega
      case isFalse =>
        split
        case isTrue =>
          show f bytes + (f b + total f rest) ≤ f b + total f rest + f bytes
          omega
        case isFalse =>
          show f b + total f (observe path bytes rest) ≤ f b + total f rest + f bytes
          omega

theorem length_observe_le : ∀ records : List (Str × Option Bytes),
    (observe path bytes records).length ≤ records.length + 1
  | [] => Nat.le_refl _
  | (p, b) :: rest => by
      have ih := length_observe_le rest
      rw [observe_cons]
      split
      case isTrue => exact Nat.le_succ _
      case isFalse =>
        split
        case isTrue => exact Nat.le_refl _
        case isFalse => exact Nat.succ_le_succ ih

/-- A path that was not recorded gets a record of its own. -/
theorem length_observe : ∀ {records : List (Str × Option Bytes)}, (∀ r ∈ records, r.1 ≠ path) →
    (observe path bytes records).length = records.length + 1
  | [], _ => rfl
  | (p, b) :: rest, hnew => by
      have ih := length_observe fun r hr => hnew r (List.mem_cons_of_mem _ hr)
      have hne : ¬path = p := fun heq => hnew (p, b) (List.mem_cons_self ..) heq.symm
      rw [observe_cons, if_neg hne]
      split
      case isTrue => rfl
      case isFalse => exact congrArg Nat.succ ih

theorem mem_observe_self : ∀ records : List (Str × Option Bytes),
    (path, bytes) ∈ observe path bytes records
  | [] => List.mem_singleton_self _
  | (p, b) :: rest => by
      rw [observe_cons]
      split
      case isTrue => exact List.mem_cons_self ..
      case isFalse =>
        split
        case isTrue => exact List.mem_cons_self ..
        case isFalse => exact List.mem_cons_of_mem _ (mem_observe_self rest)

/-- The record of another path stays. -/
theorem mem_observe_of_mem {r : Str × Option Bytes} : ∀ {records : List (Str × Option Bytes)},
    r ∈ records → r.1 ≠ path → r ∈ observe path bytes records
  | (p, b) :: rest, hr, hne => by
      rw [observe_cons]
      split
      case isTrue heq =>
        rcases List.mem_cons.1 hr with rfl | hr
        · exact absurd heq.symm hne
        · exact List.mem_cons_of_mem _ hr
      case isFalse =>
        split
        case isTrue => exact List.mem_cons_of_mem _ hr
        case isFalse =>
          rcases List.mem_cons.1 hr with rfl | hr
          · exact List.mem_cons_self ..
          · exact List.mem_cons_of_mem _ (mem_observe_of_mem hr hne)

theorem mem_of_mem_observe {r : Str × Option Bytes} : ∀ {records : List (Str × Option Bytes)},
    r ∈ observe path bytes records → r = (path, bytes) ∨ r ∈ records
  | [], hr => .inl (List.mem_singleton.1 hr)
  | (p, b) :: rest, hr => by
      rw [observe_cons] at hr
      split at hr
      case isTrue =>
        rcases List.mem_cons.1 hr with rfl | hr
        · exact .inl rfl
        · exact .inr (List.mem_cons_of_mem _ hr)
      case isFalse =>
        split at hr
        case isTrue =>
          rcases List.mem_cons.1 hr with rfl | hr
          · exact .inl rfl
          · exact .inr hr
        case isFalse =>
          rcases List.mem_cons.1 hr with rfl | hr
          · exact .inr (List.mem_cons_self ..)
          · rcases mem_of_mem_observe hr with rfl | hr
            · exact .inl rfl
            · exact .inr (List.mem_cons_of_mem _ hr)

end Records

/-! ## §2 — one ignore file. -/

/-- The builder takes every line. -/
def Accepted (engine : Engine) : Gitignore → List Str → Prop
  | _, [] => True
  | builder, line :: lines => engine.addLine builder line = true ∧
      Accepted engine { builder with lines := builder.lines ++ [line] } lines

/-- An ignore file of a directory is absent, or a text whose lines the builder takes. -/
structure Parses (engine : Engine) (dir : Str) (bytes : Option Bytes) : Prop where
  text : ∀ content, bytes = some content → (Utf8.decode content).isSome = true
  lines : Accepted engine (gitignoreOf dir none) (linesOf bytes)

/-- An ignore file of a directory compiles. -/
structure Compiles (engine : Engine) (dir : Str) (bytes : Option Bytes) : Prop
    extends Parses engine dir bytes where
  built : engine.ignoreBuild (gitignoreOf dir bytes) = true

/-- Nothing was recorded; the two counters may have gone up. -/
structure Spent (s s' : Scope) : Prop where
  filter : s'.toFilter = s.toFilter
  rules : s'.rules = s.rules
  observations : s'.observations = s.observations
  byteCount : s.policyBytes ≤ s'.policyBytes
  lineCount : s.policyLines ≤ s'.policyLines

/-- An ignore file was paid for, within the bounds where it has bytes and lines. -/
structure Fed (bytes : Option Bytes) (s s' : Scope) : Prop extends Spent s s' where
  byteSum : s'.policyBytes = s.policyBytes + bytesIn bytes
  lineSum : s'.policyLines = s.policyLines + linesIn bytes
  byteBound : bytesIn bytes ≠ 0 → s'.policyBytes ≤ 1048576
  lineBound : linesIn bytes ≠ 0 → s'.policyLines ≤ 4096

/-- An ignore file was paid for and recorded. -/
def Recorded (path : Str) (bytes : Option Bytes) (s s' : Scope) : Prop :=
  ∃ s₁, Fed bytes s s₁ ∧ s' = { s₁ with observations := observe path bytes s₁.observations }

section Load

variable {engine : Engine} {os : Os σ φ} {deadline : Nat} {s : Scope}

/-- The call only talks to the system. -/
theorem io_scope {E : Code → Entering σ φ → Prop} (m : Io σ φ α) (h : ∀ code e, e.scope = s → E code e) :
    Triple (fun e : Entering σ φ => e.scope = s) (Enter.io m) (fun _ e => e.scope = s) E :=
  Triple.onPart (Triple.anyhow m) (fun _ _ => trivial) (fun _ _ _ hs _ => hs)
    fun _ code _ hs _ => h code _ hs

theorem Spent.refl (s : Scope) : Spent s s :=
  ⟨rfl, rfl, rfl, Nat.le_refl _, Nat.le_refl _⟩

theorem Spent.trans {s s₁ s₂ : Scope} (h : Spent s s₁) (h' : Spent s₁ s₂) : Spent s s₂ where
  filter := h'.filter.trans h.filter
  rules := h'.rules.trans h.rules
  observations := h'.observations.trans h.observations
  byteCount := h.byteCount.trans h'.byteCount
  lineCount := h.lineCount.trans h'.lineCount

/-- A scope whose line counter has gone up by `n`, within the bound where `n` is not 0. -/
def Scope.addLines (s : Scope) (n : Nat) : Scope := { s with policyLines := s.policyLines + n }

theorem spent_addLines (s : Scope) (n : Nat) : Spent s (s.addLines n) :=
  ⟨rfl, rfl, rfl, Nat.le_refl _, Nat.le_add_right _ _⟩

/-- Feeding the lines of a file: each is counted before the builder gets it. -/
theorem addLines_spec : ∀ (lines : List Str) (builder : Gitignore) (s : Scope),
    Triple (fun e : Entering σ φ => e.scope = s) (addLines engine os deadline builder lines)
      (fun g e => e.scope = s.addLines lines.length
        ∧ (lines ≠ [] → (s.addLines lines.length).policyLines ≤ 4096)
        ∧ g = { builder with lines := builder.lines ++ lines } ∧ Accepted engine builder lines)
      (fun _ e => Spent s e.scope)
  | [], builder, s => Triple.pure fun e he => ⟨he, fun h => absurd rfl h, by simp, trivial⟩
  | line :: lines, builder, s => by
      refine Triple.bind (io_scope _ fun _ e he => he ▸ Spent.refl s) fun _ => ?_
      refine Triple.bind (Q := fun _ e => e.scope = s.addLines 1) (Triple.modify fun e he => ?_)
        fun _ => Triple.get_bind fun e₀ he₀ => Triple.ite (fun _ => Triple.fail ?_) fun hfits =>
          Triple.ite (fun haccepted => ?_) fun _ => Triple.fail ?_
      · show { e.scope with policyLines := e.scope.policyLines + 1 } = _
        rw [he]
        rfl
      · rintro _ rfl
        rw [he₀]
        exact spent_addLines s 1
      · -- the other lines start from a counter that is one higher
        refine Triple.con (fun e he => he ▸ he₀) (addLines_spec lines _ (s.addLines 1)) ?_ ?_
        · rintro g e ⟨he, hbound, rfl, hrest⟩
          have hadd : (s.addLines 1).addLines lines.length = s.addLines (line :: lines).length := by
            rw [Scope.addLines, Scope.addLines, Scope.addLines, List.length_cons, Nat.add_comm lines.length]
            exact congrArg (fun n => { s with policyLines := n }) (Nat.add_assoc ..)
          rw [hadd] at he hbound
          refine ⟨he, fun _ => ?_, by simp, haccepted, hrest⟩
          by_cases hlast : lines = []
          · subst hlast
            rw [he₀] at hfits
            exact Nat.not_lt.1 hfits
          · exact hbound hlast
        · intro _ e he
          exact (spent_addLines s 1).trans he
      · rintro _ rfl
        rw [he₀]
        exact spent_addLines s 1

/-- Feeding the content of a file that was found, or of none. -/
theorem addFound_spec (dir : Str) : ∀ (bytes : Option Bytes) (s : Scope),
    Triple (fun e : Entering σ φ => e.scope = s)
      (addFound engine os deadline (gitignoreOf dir none) bytes)
      (fun g e => Fed bytes s e.scope ∧ Parses engine dir bytes ∧ g = gitignoreOf dir bytes)
      (fun _ e => Spent s e.scope)
  | none, s => Triple.pure fun e he => by
      rw [he]
      refine ⟨⟨Spent.refl s, rfl, rfl, fun h => absurd rfl h, fun h => absurd rfl h⟩, ⟨?_, trivial⟩, rfl⟩
      intro content h
      cases h
  | some content, s => by
      have hcharged : Spent s { s with policyBytes := s.policyBytes + content.length } :=
        ⟨rfl, rfl, rfl, Nat.le_add_right _ _, Nat.le_refl _⟩
      refine Triple.bind (Q := fun _ e => e.scope = { s with policyBytes := s.policyBytes + content.length })
        (Triple.modify fun e he => ?_) fun _ => Triple.get_bind fun e₀ he₀ =>
          Triple.ite (fun _ => Triple.fail ?_) fun hfits => ?_
      · show { e.scope with policyBytes := e.scope.policyBytes + content.length } = _
        rw [he]
      · rintro _ rfl
        rw [he₀]
        exact hcharged
      · cases hdecode : Utf8.decode content with
        | none =>
          refine Triple.fail ?_
          rintro _ rfl
          rw [he₀]
          exact hcharged
        | some text =>
          have hlines : linesOf (some content) = strLines text := by
            rw [linesOf, Option.bind_some, hdecode]
            rfl
          refine Triple.con (fun e he => he ▸ he₀) (addLines_spec (strLines text) (gitignoreOf dir none)
            { s with policyBytes := s.policyBytes + content.length }) ?_ fun _ e he => hcharged.trans he
          rintro g e ⟨he, hbound, rfl, haccepted⟩
          rw [he₀] at hfits
          rw [he]
          refine ⟨⟨hcharged.trans (spent_addLines _ _), rfl, ?_, fun _ => Nat.not_lt.1 hfits, ?_⟩,
            ⟨?_, ?_⟩, ?_⟩
          · rw [linesIn, hlines]
            rfl
          · rw [linesIn, hlines]
            exact fun hne => hbound fun hnil => hne (by rw [hnil]; rfl)
          · intro content' heq
            rw [← Option.some.inj heq, hdecode]
            rfl
          · rw [hlines]
            exact haccepted
          · simp [gitignoreOf, linesOf, hdecode]

/-- **One ignore file**: either nothing is recorded, or the file is, paid for within the bounds. Where
the builder is built it is the file's. -/
theorem load_spec (dir name : Str) (s : Scope) :
    Triple (fun e : Entering σ φ => e.scope = s) (load engine os deadline dir name)
      (fun g e => ∃ bytes, Recorded (child dir name) bytes s e.scope ∧ Compiles engine dir bytes
        ∧ g = gitignoreOf dir bytes)
      (fun _ e => Spent s e.scope ∨ ∃ bytes, Recorded (child dir name) bytes s e.scope) := by
  refine Triple.bind (io_scope _ fun _ e he => .inl (he ▸ Spent.refl s)) fun bytes => ?_
  refine Triple.bind (Q := fun _ e => e.scope = s) (Triple.modify fun e he => he) fun _ => ?_
  refine Triple.bind (Triple.con (fun _ he => he) (addFound_spec dir bytes s) (fun _ _ he => he)
    fun _ e he => .inl he) fun builder => ?_
  refine Triple.bind (Q := fun _ e => Recorded (child dir name) bytes s e.scope ∧
    Parses engine dir bytes ∧ builder = gitignoreOf dir bytes) (Triple.modify fun e he => ?_) fun _ => ?_
  · exact ⟨⟨e.scope, he.1, rfl⟩, he.2⟩
  · refine Triple.ite (fun hbuilt => Triple.pure ?_) fun _ => Triple.fail fun e he => .inr ⟨bytes, he.1⟩
    rintro e ⟨hrecorded, hparses, rfl⟩
    exact ⟨bytes, hrecorded, ⟨hparses, hbuilt⟩, rfl⟩

end Load

/-! ## §3 — `enter`. -/

/-- What an `enter` that fails has done: nothing, or recorded the first file, or both. -/
def Halfway (dir : Str) (s s' : Scope) : Prop :=
  Spent s s' ∨ ∃ gitignore s₁, Recorded (child dir GITIGNORE) gitignore s s₁ ∧
    (Spent s₁ s' ∨ ∃ ignore, Recorded (child dir IGNORE) ignore s₁ s')

/-- What an `enter` that ends well has done. -/
structure Completed (engine : Engine) (dir : Str) (gitignore ignore : Option Bytes) (s s₁ s₂ s' : Scope) :
    Prop where
  first : Recorded (child dir GITIGNORE) gitignore s s₁
  second : Recorded (child dir IGNORE) ignore s₁ s₂
  compiles : Compiles engine dir gitignore ∧ Compiles engine dir ignore
  rules : s' = { s₂ with
    rules := s₂.rules.insert dir ⟨gitignoreOf dir gitignore, gitignoreOf dir ignore⟩ }

section Enter

variable {engine : Engine} {os : Os σ φ} {deadline : Nat}

theorem enter_spec (dir : Str) (s : Scope) :
    Triple (fun e : Entering σ φ => e.scope = s) (enter engine os deadline dir)
      (fun _ e => (s.respectIgnore = false ∧ e.scope = s) ∨ (s.observations.length < 4096 ∧
        ∃ gitignore ignore s₁ s₂, Completed engine dir gitignore ignore s s₁ s₂ e.scope))
      (fun _ e => Spent s e.scope ∨ (s.observations.length < 4096 ∧ Halfway dir s e.scope)) := by
  refine Triple.get_bind fun e₀ he₀ => Triple.ite (fun _ => ?_) fun hoff => Triple.pure ?_
  · refine Triple.get_bind fun e₁ he₁ => Triple.ite (fun _ => Triple.fail ?_) fun hroom => ?_
    · rintro _ rfl
      rw [he₁, he₀]
      exact .inl (Spent.refl s)
    · rw [he₁, he₀] at hroom
      refine Triple.con_pre (U := fun e => e.scope = s) ?_ ?_
      · rintro _ rfl
        rw [he₁, he₀]
      have hlt : s.observations.length < 4096 := Nat.lt_of_not_le hroom
      refine Triple.bind (Triple.con (fun _ he => he) (load_spec dir GITIGNORE s) (fun _ _ he => he)
        fun code e he => ?_) fun g => ?_
      · rcases he with he | ⟨gitignore, he⟩
        · exact .inr ⟨hlt, .inl he⟩
        · exact .inr ⟨hlt, .inr ⟨gitignore, e.scope, he, .inl (Spent.refl _)⟩⟩
      · -- the second file is loaded from whatever scope the first one left
        intro e₂ he₂
        obtain ⟨gitignore, hfirst, hcompiles, rfl⟩ := he₂
        refine Triple.bind (P := fun e => e.scope = e₂.scope) (Triple.con (fun _ he => he)
          (load_spec dir IGNORE e₂.scope) (fun _ _ he => he) fun code e he => ?_) (fun i => ?_) e₂ rfl
        · rcases he with he | ⟨ignore, he⟩
          · exact .inr ⟨hlt, .inr ⟨gitignore, _, hfirst, .inl he⟩⟩
          · exact .inr ⟨hlt, .inr ⟨gitignore, _, hfirst, .inr ⟨ignore, he⟩⟩⟩
        · refine Triple.modify fun e he => ?_
          obtain ⟨ignore, hsecond, hcompiles', rfl⟩ := he
          exact .inr ⟨hlt, gitignore, ignore, e₂.scope, e.scope, hfirst, hsecond,
            ⟨hcompiles, hcompiles'⟩, rfl⟩
  · rintro _ rfl
    rw [he₀] at hoff
    exact .inl ⟨eq_false_of_ne_true hoff, he₀⟩

end Enter

/-- The records are paid for, each is of a directory of `known`, and the rules of a directory are those
of its two records, both of them compiled. -/
structure PaidFor (engine : Engine) (ruled known : List Str) (s : Scope) : Prop where
  bytes : total bytesIn s.observations ≤ s.policyBytes ∧ total bytesIn s.observations ≤ 1048576
  lines : total linesIn s.observations ≤ s.policyLines ∧ total linesIn s.observations ≤ 4096
  paths : ∀ r ∈ s.observations, ∃ d ∈ known, r.1 = child d GITIGNORE ∨ r.1 = child d IGNORE
  rules : ∀ d compiled, s.rules d = some compiled → d ∈ ruled ∧ ∃ gitignore ignore,
    (child d GITIGNORE, gitignore) ∈ s.observations ∧ (child d IGNORE, ignore) ∈ s.observations
      ∧ Compiles engine d gitignore ∧ Compiles engine d ignore
      ∧ compiled = ⟨gitignoreOf d gitignore, gitignoreOf d ignore⟩

section Invariant

variable {engine : Engine} {ruled known : List Str} {dir d name name' : Str} {bytes : Option Bytes}
  {s s' : Scope}

theorem slash_notMem_GITIGNORE : '/' ∉ GITIGNORE := by decide

theorem slash_notMem_IGNORE : '/' ∉ IGNORE := by decide

/-- The files of different directories have different paths. -/
theorem child_ne (h : d ≠ dir) (hname : '/' ∉ name) (hname' : '/' ∉ name') :
    child d name ≠ child dir name' := by
  intro heq
  apply h
  calc d = parentOf (child d name) := (parentOf_child hname).symm
    _ = parentOf (child dir name') := by rw [heq]
    _ = dir := parentOf_child hname'

theorem GITIGNORE_ne_IGNORE (d : Str) : child d GITIGNORE ≠ child d IGNORE := by
  intro heq
  have hname : GITIGNORE = IGNORE := child_injective heq
  revert hname
  decide

theorem PaidFor.spent (h : PaidFor engine ruled known s) (hs : Spent s s') : PaidFor engine ruled known s' where
  bytes := by
    rw [hs.observations]
    exact ⟨h.bytes.1.trans hs.byteCount, h.bytes.2⟩
  lines := by
    rw [hs.observations]
    exact ⟨h.lines.1.trans hs.lineCount, h.lines.2⟩
  paths := by
    rw [hs.observations]
    exact h.paths
  rules := by
    rw [hs.observations, hs.rules]
    exact h.rules

/-- A measure of the files stays within its bound, as what is recorded was counted against it. -/
theorem total_within {f : Option Bytes → Nat} {records : List (Str × Option Bytes)} {path : Str}
    {count count' bound : Nat} (h : total f records ≤ count ∧ total f records ≤ bound)
    (hsum : count' = count + f bytes) (hbound : f bytes ≠ 0 → count' ≤ bound) :
    total f (observe path bytes records) ≤ count' ∧ total f (observe path bytes records) ≤ bound := by
  have hle : total f (observe path bytes records) ≤ total f records + f bytes := total_observe records
  by_cases hzero : f bytes = 0
  · omega
  · have hcount := hbound hzero
    omega

/-- A record of a directory that has no rules yet. -/
theorem PaidFor.recorded (h : PaidFor engine ruled known s) (hdir : dir ∈ known) (hnew : dir ∉ ruled)
    (hname : name = GITIGNORE ∨ name = IGNORE) (hr : Recorded (child dir name) bytes s s') :
    PaidFor engine ruled known s' := by
  obtain ⟨s₁, hfed, rfl⟩ := hr
  have hslash : '/' ∉ name := by
    rcases hname with rfl | rfl
    · exact slash_notMem_GITIGNORE
    · exact slash_notMem_IGNORE
  have hobs := hfed.observations
  refine ⟨?_, ?_, ?_, ?_⟩
  · rw [hobs]
    exact total_within h.bytes hfed.byteSum hfed.byteBound
  · rw [hobs]
    exact total_within h.lines hfed.lineSum hfed.lineBound
  · intro r hmem
    rcases mem_of_mem_observe hmem with rfl | hmem
    · refine ⟨dir, hdir, ?_⟩
      rcases hname with rfl | rfl
      · exact .inl rfl
      · exact .inr rfl
    · rw [hobs] at hmem
      exact h.paths r hmem
  · intro d compiled hd
    have hd' : s.rules d = some compiled := by
      rw [← hfed.rules]
      exact hd
    obtain ⟨hmem, gitignore, ignore, hg, hi, hcompiles⟩ := h.rules d compiled hd'
    have hne : d ≠ dir := fun heq => hnew (heq ▸ hmem)
    refine ⟨hmem, gitignore, ignore, ?_, ?_, hcompiles⟩
    · rw [hobs]
      exact mem_observe_of_mem hg (child_ne hne slash_notMem_GITIGNORE hslash)
    · rw [hobs]
      exact mem_observe_of_mem hi (child_ne hne slash_notMem_IGNORE hslash)

theorem Recorded.mem {path : Str} (h : Recorded path bytes s s') : (path, bytes) ∈ s'.observations := by
  obtain ⟨s₁, -, rfl⟩ := h
  exact mem_observe_self _

theorem Recorded.mem_of_mem {path : Str} {r : Str × Option Bytes} (h : Recorded path bytes s s')
    (hr : r ∈ s.observations) (hne : r.1 ≠ path) : r ∈ s'.observations := by
  obtain ⟨s₁, hfed, rfl⟩ := h
  show r ∈ observe path bytes s₁.observations
  rw [hfed.observations]
  exact mem_observe_of_mem hr hne

/-- Both records of a directory, and its rules. -/
theorem PaidFor.completed {gitignore ignore : Option Bytes} {s₁ s₂ : Scope}
    (h : PaidFor engine ruled known s) (hdir : dir ∈ known) (hnew : dir ∉ ruled)
    (hc : Completed engine dir gitignore ignore s s₁ s₂ s') : PaidFor engine (dir :: ruled) known s' := by
  have h₂ : PaidFor engine ruled known s₂ :=
    (h.recorded hdir hnew (.inl rfl) hc.first).recorded hdir hnew (.inr rfl) hc.second
  rw [hc.rules]
  refine ⟨h₂.bytes, h₂.lines, h₂.paths, fun d compiled hd => ?_⟩
  change Rules.insert _ _ _ d = _ at hd
  rw [Rules.insert] at hd
  split at hd
  case isTrue heq =>
    cases hd
    rw [heq]
    refine ⟨List.mem_cons_self .., gitignore, ignore, ?_, hc.second.mem, hc.compiles.1, hc.compiles.2, rfl⟩
    exact hc.second.mem_of_mem hc.first.mem (GITIGNORE_ne_IGNORE dir)
  case isFalse =>
    obtain ⟨hmem, hrest⟩ := h₂.rules d compiled hd
    exact ⟨List.mem_cons_of_mem _ hmem, hrest⟩

theorem PaidFor.mono {ruled' known' : List Str} (h : PaidFor engine ruled known s) (hruled : ruled ⊆ ruled')
    (hknown : known ⊆ known') : PaidFor engine ruled' known' s where
  bytes := h.bytes
  lines := h.lines
  paths r hr := by
    obtain ⟨d, hd, hpath⟩ := h.paths r hr
    exact ⟨d, hknown hd, hpath⟩
  rules d compiled hd := by
    obtain ⟨hmem, hrest⟩ := h.rules d compiled hd
    exact ⟨hruled hmem, hrest⟩

theorem Recorded.length {path : Str} (h : Recorded path bytes s s') :
    s'.observations.length ≤ s.observations.length + 1 := by
  obtain ⟨s₁, hfed, rfl⟩ := h
  show (observe path bytes s₁.observations).length ≤ _
  rw [hfed.observations]
  exact length_observe_le _

end Invariant

section Step

variable {engine : Engine} {os : Os σ φ} {deadline : Nat} {dirs : List Str} {dir : Str}

/-- **A directory is entered for the first time**: the records stay paid for, and there are at most two
more of them where there was room for one. -/
theorem paidFor_enter {s : Scope} (h : PaidFor engine dirs dirs s) (hnew : dir ∉ dirs) {w : World σ φ}
    {out : Except Code Unit} {e : Entering σ φ}
    (hrun : enter engine os deadline dir ⟨w, s⟩ = (out, e)) :
    PaidFor engine (dir :: dirs) (dir :: dirs) e.scope
      ∧ (e.scope.observations.length ≤ s.observations.length ∨ (s.observations.length < 4096
          ∧ e.scope.observations.length ≤ s.observations.length + 2)) := by
  have hknown : PaidFor engine dirs (dir :: dirs) s :=
    h.mono (List.Subset.refl _) (List.subset_cons_self _ _)
  have hdir : dir ∈ dir :: dirs := List.mem_cons_self ..
  have hruled : ∀ {s'}, PaidFor engine dirs (dir :: dirs) s' → PaidFor engine (dir :: dirs) (dir :: dirs) s' :=
    fun hk => hk.mono (List.subset_cons_self _ _) (List.Subset.refl _)
  have hspec := @enter_spec σ φ engine os deadline dir s ⟨w, s⟩ rfl
  rw [hrun] at hspec
  rcases out with code | _
  · rcases hspec with hspent | ⟨hroom, hspent | ⟨gitignore, s₁, hfirst, hrest⟩⟩
    · exact ⟨hruled (hknown.spent hspent), .inl (Nat.le_of_eq (by rw [hspent.observations]))⟩
    · exact ⟨hruled (hknown.spent hspent), .inl (Nat.le_of_eq (by rw [hspent.observations]))⟩
    · have hone := hfirst.length
      have hpaid := hknown.recorded hdir hnew (.inl rfl) hfirst
      rcases hrest with hspent | ⟨ignore, hsecond⟩
      · refine ⟨hruled (hpaid.spent hspent), .inr ⟨hroom, ?_⟩⟩
        rw [hspent.observations]
        exact hone.trans (Nat.le_succ _)
      · have htwo := hsecond.length
        exact ⟨hruled (hpaid.recorded hdir hnew (.inr rfl) hsecond), .inr ⟨hroom, by omega⟩⟩
  · rcases hspec with ⟨-, hsame⟩ | ⟨hroom, gitignore, ignore, s₁, s₂, hc⟩
    · change e.scope = s at hsame
      rw [hsame]
      exact ⟨hruled hknown, .inl (Nat.le_refl _)⟩
    · have hone := hc.first.length
      have htwo := hc.second.length
      refine ⟨hknown.completed hdir hnew hc, .inr ⟨hroom, ?_⟩⟩
      rw [hc.rules]
      show s₂.observations.length ≤ _
      omega

end Step

/-! ## §4 — a sequence of `enter`s. -/

section Sequence

variable (engine : Engine) (os : Os σ φ) (deadline : Nat) (when : Scope → Prop)

/-- The scopes that a walk reaches by entering directories it has not entered before, with any state of
the system at each of them. The walk goes on after a directory that could not be read; `when` is what
holds of the scope each time a directory is entered. -/
inductive EnteredAll : List Str → Scope → Except Code Unit → Prop
  | new {input scope} (h : Scope.new engine input = .ok scope) : EnteredAll [] scope (.ok ())
  | enter {dirs scope last dir world out e} (before : EnteredAll dirs scope last)
      (goes : last = .ok () ∨ last = .error .readFailed) (fresh : dir ∉ dirs) (holds : when scope)
      (run : enter engine os deadline dir ⟨world, scope⟩ = (out, e)) : EnteredAll (dir :: dirs) e.scope out

/-- What the documentation promises of the ignore files of an operation. -/
structure Documented (scope : Scope) : Prop where
  observations : scope.observations.length ≤ 4096
  bytes : total bytesIn scope.observations ≤ 1048576
  lines : total linesIn scope.observations ≤ 4096
  /-- Rules only where both files were observed and compiled. -/
  rules : ∀ d compiled, scope.rules d = some compiled → ∃ gitignore ignore,
    (child d GITIGNORE, gitignore) ∈ scope.observations ∧ (child d IGNORE, ignore) ∈ scope.observations
      ∧ Compiles engine d gitignore ∧ Compiles engine d ignore
      ∧ compiled = ⟨gitignoreOf d gitignore, gitignoreOf d ignore⟩

end Sequence

section Runs

variable {engine : Engine} {os : Os σ φ} {deadline : Nat} {when : Scope → Prop} {dirs : List Str}
  {scope : Scope} {last : Except Code Unit}

theorem paidFor_new {input : ScopeInput} (h : Scope.new engine input = .ok scope) :
    PaidFor engine [] [] scope := by
  obtain ⟨hobs, hrules⟩ := new_observations h
  refine ⟨?_, ?_, ?_, ?_⟩
  · rw [hobs]
    exact ⟨Nat.zero_le _, Nat.zero_le _⟩
  · rw [hobs]
    exact ⟨Nat.zero_le _, Nat.zero_le _⟩
  · rw [hobs]
    intro r hr
    cases hr
  · rw [hrules]
    intro d compiled hd
    cases hd

theorem paidFor_enteredAll (h : EnteredAll engine os deadline when dirs scope last) :
    PaidFor engine dirs dirs scope := by
  induction h with
  | new h => exact paidFor_new h
  | enter before goes fresh holds run ih => exact (paidFor_enter ih fresh run).1

/-- The number of records stays within its bound where no directory is entered with one place left. -/
theorem length_enteredAll (h : EnteredAll engine os deadline (fun s => s.observations.length ≠ 4095) dirs scope last) :
    scope.observations.length ≤ 4096 := by
  induction h with
  | new h =>
    rw [(new_observations h).1]
    exact Nat.zero_le _
  | enter before goes fresh holds run ih =>
    rcases (paidFor_enter (paidFor_enteredAll before) fresh run).2 with hle | ⟨hroom, hle⟩
    · exact hle.trans ih
    · omega

/-- A directory that is entered and read with one place left takes two. -/
theorem length_overflow (h : EnteredAll engine os deadline when dirs scope last) {dir : Str}
    (hnew : dir ∉ dirs) (hon : scope.respectIgnore = true) {w : World σ φ} {e : Entering σ φ}
    (hrun : enter engine os deadline dir ⟨w, scope⟩ = (.ok (), e)) :
    e.scope.observations.length = scope.observations.length + 2 ∧ e.scope.respectIgnore = true := by
  have hpaid := paidFor_enteredAll h
  have hspec := @enter_spec σ φ engine os deadline dir scope ⟨w, scope⟩ rfl
  rw [hrun] at hspec
  rcases hspec with ⟨hoff, -⟩ | ⟨-, gitignore, ignore, s₁, s₂, hc⟩
  · rw [hon] at hoff
    cases hoff
  obtain ⟨t₁, hfed₁, rfl⟩ := hc.first
  obtain ⟨t₂, hfed₂, rfl⟩ := hc.second
  have hobs₁ := hfed₁.observations
  have hobs₂ := hfed₂.observations
  have hunseen : ∀ name, '/' ∉ name → ∀ r ∈ scope.observations, r.1 ≠ child dir name := by
    intro name hname r hr
    obtain ⟨d, hd, hpath⟩ := hpaid.paths r hr
    have hne : d ≠ dir := fun heq => hnew (heq ▸ hd)
    rcases hpath with hpath | hpath
    · rw [hpath]
      exact child_ne hne slash_notMem_GITIGNORE hname
    · rw [hpath]
      exact child_ne hne slash_notMem_IGNORE hname
  constructor
  · rw [hc.rules]
    show (observe (child dir IGNORE) ignore t₂.observations).length = _
    rw [hobs₂, hobs₁, length_observe, length_observe (hunseen _ slash_notMem_GITIGNORE)]
    intro r hr
    rcases mem_of_mem_observe hr with rfl | hr
    · exact GITIGNORE_ne_IGNORE dir
    · exact hunseen _ slash_notMem_IGNORE r hr
  · rw [hc.rules]
    show t₂.respectIgnore = true
    have hfilter : t₂.toFilter = scope.toFilter := hfed₂.filter.trans hfed₁.filter
    calc t₂.respectIgnore = scope.respectIgnore := by rw [hfilter]
      _ = true := hon

end Runs

/-! ## §5 — one directory that fails halfway, and one record too many. -/

/-- A system with one unreadable ignore file, in the directory `x`, and no other. -/
def refusing : Os Unit Unit where
  now s := (0, s)
  openat2 path s := (.error (if path = child ['x'] IGNORE then .other else .noent), s)
  reopen _ _ s := (none, s)
  fstat _ s := (none, s)
  read _ _ s := (none, s)
  dir _ s := (none, s)

theorem policyBytes_refusing {path : Str} (h : path ≠ child ['x'] IGNORE) (w : World Unit Unit) :
    ∃ w', policyBytes refusing 1 path w = (.ok none, w') := by
  have htime : expired refusing 1 w = (.ok (), { w with os := () }) := rfl
  have hopen : ∃ w', refusing.doOpenPolicy path { w with os := () } = (.ok (.error .noent), w') := by
    refine ⟨{ os := (), log := w.log ++ [.policyOpened path (.error .noent)] }, ?_⟩
    rw [Os.doOpenPolicy, Exec.call_run, Os.asked, refusing]
    dsimp only
    rw [if_neg h]
  obtain ⟨w', hopen⟩ := hopen
  refine ⟨w', ?_⟩
  rw [policyBytes, Exec.bind_of_ok htime, Exec.bind_of_ok hopen]
  rfl

theorem load_refusing {dir name : Str} (h : child dir name ≠ child ['x'] IGNORE) (e : Entering Unit Unit) :
    ∃ g e', load Engine.plain refusing 1 dir name e = (.ok g, e') := by
  obtain ⟨w', hbytes⟩ := policyBytes_refusing h e.world
  have hio : Enter.io (policyBytes refusing 1 (child dir name)) e = (.ok none, { e with world := w' }) := by
    rw [Enter.io, Exec.onPart_run, hbytes]
  refine ⟨gitignoreOf dir none, ?_⟩
  rw [load, Exec.bind_of_ok hio]
  exact ⟨_, rfl⟩

/-- Every other directory is entered. -/
theorem enter_refusing {dir : Str} (h : dir ≠ ['x']) {s : Scope} (hroom : s.observations.length < 4096)
    (w : World Unit Unit) : ∃ e, enter Engine.plain refusing 1 dir ⟨w, s⟩ = (.ok (), e) := by
  obtain ⟨g, e₁, hfirst⟩ := load_refusing (child_ne h slash_notMem_GITIGNORE slash_notMem_IGNORE) ⟨w, s⟩
  obtain ⟨i, e₂, hsecond⟩ := load_refusing (child_ne h slash_notMem_IGNORE slash_notMem_IGNORE) e₁
  have hget : ∀ {β : Type} (f : Entering Unit Unit → Enter Unit Unit β),
      (Exec.get >>= f) ⟨w, s⟩ = f ⟨w, s⟩ ⟨w, s⟩ := fun f => Exec.bind_of_ok rfl
  rw [enter, hget]
  by_cases hon : s.respectIgnore = true
  · rw [if_pos hon, enterDir, hget, if_neg (Nat.not_le.2 hroom), Exec.bind_of_ok hfirst,
      Exec.bind_of_ok hsecond]
    exact ⟨_, rfl⟩
  · rw [if_neg hon]
    exact ⟨_, rfl⟩

/-- The names of directories beside `x`: one character each. -/
def crowdName (i : Nat) : Str := [Char.ofNat (0x4e00 + i)]

/-- The root, `x`, and `n` other directories, the last one entered first. -/
def crowdDirs : Nat → List Str
  | 0 => [['x'], []]
  | n + 1 => crowdName n :: crowdDirs n

theorem crowdName_eq {i j : Nat} (hi : i < 4096) (hj : j < 4096) (h : crowdName i = crowdName j) : i = j := by
  have hchar := congrArg Char.toNat (List.cons.inj h).1
  rw [Utf16.toNat_ofNat_char (.inl (by omega)), Utf16.toNat_ofNat_char (.inl (by omega))] at hchar
  omega

theorem crowdName_ne {i : Nat} (hi : i < 4096) : crowdName i ≠ ['x'] := by
  intro h
  have hchar := congrArg Char.toNat (List.cons.inj h).1
  rw [Utf16.toNat_ofNat_char (.inl (by omega))] at hchar
  have hx : ('x' : Char).toNat = 120 := rfl
  omega

theorem crowdName_fresh {i : Nat} (hi : i < 4096) : ∀ n ≤ i, crowdName i ∉ crowdDirs n
  | 0, _ => by
      intro hmem
      rcases List.mem_cons.1 hmem with heq | hmem
      · exact crowdName_ne hi heq
      · cases List.mem_singleton.1 hmem
  | n + 1, hn => by
      intro hmem
      rcases List.mem_cons.1 hmem with heq | hmem
      · have := crowdName_eq hi (by omega) heq
        omega
      · exact crowdName_fresh hi n (by omega) hmem

/-- Two records for the root, one for `x`, and two for each other directory. -/
theorem crowd : ∀ n ≤ 2047, ∃ scope last,
    EnteredAll Engine.plain refusing 1 (fun _ => True) (crowdDirs n) scope last
      ∧ (last = .ok () ∨ last = .error .readFailed) ∧ scope.respectIgnore = true
      ∧ scope.observations.length = 3 + 2 * n
  | 0, _ => by
      let w : World Unit Unit := { os := (), log := [] }
      let s₀ : Scope := { groups := [], exclude := [], hidden := false, respectIgnore := true }
      let e₁ := (enter Engine.plain refusing 1 [] ⟨w, s₀⟩).2
      let e₂ := (enter Engine.plain refusing 1 ['x'] ⟨w, e₁.scope⟩).2
      have hnew : Scope.new Engine.plain { respectIgnore := true } = .ok s₀ := rfl
      have hroot : enter Engine.plain refusing 1 [] ⟨w, s₀⟩ = (.ok (), e₁) := rfl
      have hx : enter Engine.plain refusing 1 ['x'] ⟨w, e₁.scope⟩ = (.error .readFailed, e₂) := rfl
      refine ⟨e₂.scope, _, ?_, .inr rfl, rfl, rfl⟩
      exact ((EnteredAll.new hnew).enter (.inl rfl) (by simp) trivial hroot).enter (.inl rfl) (by simp)
        trivial hx
  | n + 1, hn => by
      obtain ⟨scope, last, hentered, hgoes, hon, hlen⟩ := crowd n (by omega)
      have hroom : scope.observations.length < 4096 := by omega
      have hfresh := crowdName_fresh (i := n) (by omega) n (Nat.le_refl n)
      obtain ⟨e, hrun⟩ := enter_refusing (crowdName_ne (i := n) (by omega)) hroom { os := (), log := [] }
      obtain ⟨htwo, hon'⟩ := length_overflow hentered hfresh hon hrun
      refine ⟨e.scope, .ok (), hentered.enter hgoes hfresh trivial hrun, .inl rfl, hon', ?_⟩
      omega

/-- **The ignore files of an operation stay within their documented bounds** in every walk that enters
no directory with 4095 records; where a directory is read with 4095 records, there are 4097. -/
theorem enteredAll_documented {engine : Engine} {os : Os σ φ} {deadline : Nat} {dirs : List Str}
    {scope : Scope} {last : Except Code Unit}
    (h : EnteredAll engine os deadline (fun s => s.observations.length ≠ 4095) dirs scope last) :
    Documented engine scope ∧ ∀ dir w e, dir ∉ dirs → scope.respectIgnore = true →
      scope.observations.length = 4095 → enter engine os deadline dir ⟨w, scope⟩ = (.ok (), e) →
        e.scope.observations.length = 4097 := by
  have hpaid := paidFor_enteredAll h
  constructor
  · refine ⟨length_enteredAll h, hpaid.bytes.2, hpaid.lines.2, fun d compiled hd => ?_⟩
    exact (hpaid.rules d compiled hd).2
  · intro dir w e hnew hon hfull hrun
    rw [(length_overflow h hnew hon hrun).1, hfull]

/-- A root with a `.gitignore`, a directory `x` whose `.ignore` is no regular file, and a directory `y`
with a captured `.ignore`. -/
def policyTree : Node :=
  .dir [(.ofStr GITIGNORE (by decide), .file (Utf8.encode "*.log\n# built\n".toList)),
    (.ofStr ['x'] (by decide), .dir [(.ofStr IGNORE (by decide), .other)]),
    (.ofStr ['y'] (by decide), .dir [(.ofStr IGNORE (by decide), .file (Utf8.encode "z\n".toList))])]

/-- A directory of it entered with the given scope. -/
def enterPolicy (dir : Str) (scope : Scope) : Except Code Unit × Entering Nat Node :=
  enter Engine.plain policyTree.os 1000000 dir ⟨⟨0, []⟩, scope⟩

/-- The scope before the root. -/
def policyStart : Scope := { groups := [], exclude := [], hidden := false, respectIgnore := true }

/-- The scopes behind the root, behind `x` and behind `y`. -/
def behindRoot : Scope := (enterPolicy [] policyStart).2.scope

def behindX : Scope := (enterPolicy ['x'] behindRoot).2.scope

def behindY : Scope := (enterPolicy ['y'] behindX).2.scope

theorem enterPolicy_eq {dir : Str} {scope : Scope} {out : Except Code Unit}
    (h : (enterPolicy dir scope).1 = out) : enterPolicy dir scope = (out, (enterPolicy dir scope).2) := by
  rw [← h]

/-- Three directories, one of which fails between its two records. -/
theorem enteredAll_documented_policies :
    behindY.observations.map (fun r => (r.1, r.2.isSome))
      = [(GITIGNORE, true), (IGNORE, false), (child ['x'] GITIGNORE, false), (child ['y'] GITIGNORE, false),
        (child ['y'] IGNORE, true)] ∧
    Documented Engine.plain behindY := by
  have hnew : Scope.new Engine.plain { respectIgnore := true } = .ok policyStart := rfl
  have hroot : (enterPolicy [] policyStart).1 = .ok () := by decide +kernel
  have hx : (enterPolicy ['x'] behindRoot).1 = .error .readFailed := by decide +kernel
  have hy : (enterPolicy ['y'] behindX).1 = .ok () := by decide +kernel
  have hlengths : policyStart.observations.length ≠ 4095 ∧ behindRoot.observations.length ≠ 4095 ∧
      behindX.observations.length ≠ 4095 := by decide +kernel
  have hwalk : EnteredAll Engine.plain policyTree.os 1000000 (fun s => s.observations.length ≠ 4095)
      [['y'], ['x'], []] behindY (.ok ()) :=
    (((EnteredAll.new hnew).enter (.inl rfl) List.not_mem_nil hlengths.1 (enterPolicy_eq hroot)).enter
      (.inl rfl) (by decide) hlengths.2.1 (enterPolicy_eq hx)).enter (.inr rfl) (by decide) hlengths.2.2
        (enterPolicy_eq hy)
  exact ⟨by decide +kernel, (enteredAll_documented hwalk).1⟩

/-- The number of records goes beyond its bound. -/
theorem observations_exceed : ¬∀ (dirs : List Str) (scope : Scope) (last : Except Code Unit),
    EnteredAll Engine.plain refusing 1 (fun _ => True) dirs scope last → Documented Engine.plain scope := by
  intro hall
  obtain ⟨scope, last, hentered, -, -, hlen⟩ := crowd 2047 (Nat.le_refl _)
  have hle := (hall _ scope last hentered).observations
  omega

end JevGrep.Worker
