/-
# `JevGrep.Worker.Follow` — the walk of the source follows its plan.

On any system that shows a tree, whatever its clock, its handles and the pieces it reads in, the walk does
to its state what the steps of the tree do to the ledger, and ends as they end. `search_planned` says so of
whole searches: what one returns is a function of the request and of the tree.

* §1 what is compared; §2 ignore files; §3 files; §4 the walk; §5 `search`.
-/
import JevGrep.Lib.Simulation
import JevGrep.Worker.Plan

namespace JevGrep.Worker

open JevGrep.Lib
open Exec (bind_of_ok bind_of_error Simulates Keeps)

/-! ## §1 — what is compared. -/

/-- What a scope keeps of the ignore files. -/
def Scope.records (scope : Scope) : Records where
  observations := scope.observations
  policyBytes := scope.policyBytes
  policyLines := scope.policyLines

section Compared

variable {σ φ : Type}

/-- The ledger of a walk's state. -/
def State.ledger (s : State σ φ) : Ledger where
  records := s.scope.records
  result := s.result
  usedBytes := s.usedBytes

variable (filter : Filter) (tree : Node)

/-- The scope has the rules of `dirs`, no rules but those of the tree, and room for more. -/
structure Equipped (dirs : List Str) (scope : Scope) : Prop where
  settings : scope.toFilter = filter
  rules : ∀ d compiled, scope.rules d = some compiled → compiled = tree.compiled d
  known : filter.respectIgnore = true → ∀ d ∈ dirs, (scope.rules d).isSome = true
  byteBound : scope.policyBytes ≤ 1048576
  lineBound : scope.policyLines ≤ 4096

/-- The state stands where the ledger stands. -/
def Mirrors (dirs : List Str) (s : State σ φ) (l : Ledger) : Prop :=
  s.ledger = l ∧ Equipped filter tree dirs s.scope

/-- How a walk ends where its plan stops: with the same code and ledger. Where an ignore file does not
load it ends in some error, or goes on and is not complete. -/
def Given (out : Option Code) (stop : Stop) (s : State σ φ) (l : Ledger) : Prop :=
  match stop.code with
  | some code => out = some code ∧ s.ledger = l
  | none => out.isSome = true ∨ s.result.coverage = .incomplete

/-- `m` does to the state what `p` does to the ledger, and ends as `p` ends. -/
def Follows (dirs dirs' : List Str) (m : Work σ φ Unit) (p : Entry) : Prop :=
  Simulates (Mirrors filter tree dirs) m p (fun _ _ => Mirrors filter tree dirs') Given

/-- What is not complete stays so. -/
abbrev Taints (m : Work σ φ Unit) : Prop := Keeps (fun s : State σ φ => s.result.coverage = .incomplete) m

variable {filter tree} {dirs dirs' dirs'' : List Str}

theorem Equipped.mono {scope : Scope} (h : Equipped filter tree dirs scope) (hsub : dirs' ⊆ dirs) :
    Equipped filter tree dirs' scope :=
  { h with known := fun hon d hd => h.known hon d (hsub hd) }

/-- The rules of one more directory. -/
theorem Equipped.insert {scope : Scope} (h : Equipped filter tree dirs scope) (dir : Str) :
    Equipped filter tree (dir :: dirs) { scope with rules := scope.rules.insert dir (tree.compiled dir) } where
  settings := h.settings
  rules d compiled hd := by
    change (if d = dir then some (tree.compiled dir) else scope.rules d) = some compiled at hd
    split at hd
    case isTrue heq =>
      rw [heq]
      exact (Option.some.inj hd).symm
    case isFalse => exact h.rules d compiled hd
  known hon d hd := by
    show (if d = dir then some (tree.compiled dir) else scope.rules d).isSome = true
    split
    case isTrue => rfl
    case isFalse hne => exact h.known hon d ((List.mem_cons.1 hd).resolve_left hne)
  byteBound := h.byteBound
  lineBound := h.lineBound

theorem Equipped.allows {engine : Engine} {scope : Scope} (h : Equipped filter tree dirs scope) {path : Str}
    (hdirs : containing path ⊆ dirs) (directory : Bool) :
    scope.allows engine path directory = inScope engine filter tree path directory := by
  rw [Scope.allows, inScope, h.settings]
  refine allowsUnder_congr (fun hon d hd => ?_) directory
  obtain ⟨compiled, hcompiled⟩ := Option.isSome_iff_exists.1 (h.known hon d (hdirs hd))
  rw [hcompiled, h.rules d compiled hcompiled]
  rfl

/-- What has been given up stays given up. -/
theorem Given.later {m : Work σ φ Unit} (hm : Taints m) {stop : Stop} {s : State σ φ} {l : Ledger}
    (h : Given none stop s l) : Given (Exec.failure (m s).1) stop (m s).2 l := by
  unfold Given at h ⊢
  cases hcode : stop.code with
  | some code =>
    rw [hcode] at h
    cases h.1
  | none =>
    rw [hcode] at h
    have hs := hm s (h.resolve_left (by simp))
    rcases hrun : m s with ⟨code | ⟨⟩, s'⟩ <;> rw [hrun] at hs
    · exact .inl rfl
    · exact .inr hs

namespace Follows

theorem pure : Follows filter tree dirs dirs (pure () : Work σ φ Unit) (pure ()) :=
  Simulates.pure fun _ _ h => h

theorem fail {code : Code} {stop : Stop} (hcode : stop.code = some code) :
    Follows filter tree dirs dirs' (.fail code : Work σ φ Unit) (.fail stop) :=
  Simulates.fail fun _ _ h => by
    unfold Given
    rw [hcode]
    exact ⟨rfl, h.1⟩

/-- A change of the result or of the budget. -/
theorem modify {f : State σ φ → State σ φ} {g : Ledger → Ledger} (hledger : ∀ s, (f s).ledger = g s.ledger)
    (hscope : ∀ s, (f s).scope = s.scope) : Follows filter tree dirs dirs (.modify f) (.modify g) :=
  Simulates.modify fun s _ h => by
    refine ⟨(hledger s).trans (congrArg g h.1), ?_⟩
    rw [hscope]
    exact h.2

theorem bind {m : Work σ φ Unit} {p : Entry} {f : Unit → Work σ φ Unit} {q : Unit → Entry}
    (hm : Follows filter tree dirs dirs' m p) (hf : Follows filter tree dirs' dirs'' (f ()) (q ()))
    (hkeeps : Taints (f ())) : Follows filter tree dirs dirs'' (m >>= f) (p >>= q) :=
  Simulates.bind hm (fun _ _ => hf) fun _ _ _ _ hlost => hlost.later hkeeps

theorem mono {m : Work σ φ Unit} {p : Entry} (h : Follows filter tree dirs dirs' m p)
    (hsub : dirs'' ⊆ dirs') : Follows filter tree dirs dirs'' m p :=
  Simulates.con (fun _ _ hs => hs) h (fun _ _ _ _ hs => ⟨hs.1, hs.2.mono hsub⟩) fun _ _ _ _ hs => hs

theorem get_bind {f : State σ φ → Work σ φ Unit} {q : Ledger → Entry}
    (h : ∀ s : State σ φ, Equipped filter tree dirs s.scope →
      Follows filter tree dirs dirs' (f s) (q s.ledger)) :
    Follows filter tree dirs dirs' (.get >>= f) (.get >>= q) :=
  Simulates.get_bind fun s _ hs => Simulates.con_pre
    (fun _ _ heq => heq.1 ▸ heq.2 ▸ hs) (hs.1 ▸ h s hs.2)

theorem get_left {f : State σ φ → Work σ φ Unit} {p : Entry}
    (h : ∀ s : State σ φ, Equipped filter tree dirs s.scope → Follows filter tree dirs dirs' (f s) p) :
    Follows filter tree dirs dirs' (.get >>= f) p :=
  Simulates.get_left fun s _ hs => Simulates.con_pre (fun _ _ heq => heq.1 ▸ heq.2 ▸ hs) (h s hs.2)

/-- A record in the log. -/
theorem note {e : Event φ} {f : Unit → Work σ φ Unit} {p : Entry}
    (h : Follows filter tree dirs dirs' (f ()) p) :
    Follows filter tree dirs dirs' (.modify (·.note e) >>= f) p :=
  Simulates.silent (U := fun _ => Mirrors filter tree dirs)
    (fun s _ hs => ⟨(), s.note e, rfl, hs⟩) fun _ => h

/-- A call that returns what `P` says. -/
theorem io {α : Type} {m : Io σ φ α} {f : α → Work σ φ Unit} {p : Entry} {P : α → Prop}
    (hm : ∀ w, ∃ a w', m w = (.ok a, w') ∧ P a)
    (hf : ∀ a, P a → Follows filter tree dirs dirs' (f a) p) :
    Follows filter tree dirs dirs' (Work.io m >>= f) p := by
  refine Simulates.silent (U := fun a s l => Mirrors filter tree dirs s l ∧ P a) (fun s _ hs => ?_)
    fun a => Simulates.of_pre (c := P a) (fun _ _ h => h.2) fun ha =>
      Simulates.con_pre (fun _ _ h => h.1) (hf a ha)
  obtain ⟨a, w', hw, ha⟩ := hm s.world
  refine ⟨a, { s with world := w' }, ?_, hs, ha⟩
  show ((m s.world).1, { s with world := (m s.world).2 }) = _
  rw [hw]

/-- A call that is tried. -/
theorem attempt_io {α : Type} {m : Io σ φ α} {f : Except Code α → Work σ φ Unit} {p : Entry}
    {P : α → Prop} (hm : ∀ w, ∃ a w', m w = (.ok a, w') ∧ P a)
    (hf : ∀ a, P a → Follows filter tree dirs dirs' (f (.ok a)) p) :
    Follows filter tree dirs dirs' (Exec.attempt (Work.io m) >>= f) p := by
  refine Simulates.silent (U := fun o s l => Mirrors filter tree dirs s l ∧ ∃ a, o = .ok a ∧ P a)
    (fun s _ hs => ?_) fun o => Simulates.of_pre (c := ∃ a, o = .ok a ∧ P a) (fun _ _ h => h.2) ?_
  · obtain ⟨a, w', hw, ha⟩ := hm s.world
    refine ⟨.ok a, { s with world := w' }, ?_, hs, a, rfl, ha⟩
    show (Except.ok (m s.world).1, { s with world := (m s.world).2 }) = _
    rw [hw]
  · rintro ⟨a, rfl, ha⟩
    exact Simulates.con_pre (fun _ _ h => h.1) (hf a ha)

theorem ite {c : Prop} [Decidable c] {m m' : Work σ φ Unit} {p p' : Entry}
    (ht : c → Follows filter tree dirs dirs' m p) (hf : ¬c → Follows filter tree dirs dirs' m' p') :
    Follows filter tree dirs dirs' (if c then m else m') (if c then p else p') := Simulates.ite ht hf

end Follows

end Compared

/-! ## §2 — ignore files. -/

section Policies

variable {σ φ : Type}

/-- The scope stands where the records stand. -/
def Stands (filter : Filter) (tree : Node) (dirs : List Str) (e : Entering σ φ) (records : Records) : Prop :=
  e.scope.records = records ∧ Equipped filter tree dirs e.scope

/-- How `enter` ends where its plan stops. -/
def Refused (out : Option Code) (stop : Stop) (e : Entering σ φ) (records : Records) : Prop :=
  stop = .entryLimit ∧ out = some .entryLimit ∧ e.scope.records = records

variable {engine : Engine} {os : Os σ φ} {tree : Node} {root : φ}
  (st : Static os tree root) {deadline : Nat} (htime : ∀ s, (os.now s).1 < deadline)

include st htime

theorem inTime_entering (e : Entering σ φ) : ∃ w', Enter.io (expired os deadline) e
    = (.ok (), { e with world := w' }) := by
  obtain ⟨w', h, -⟩ := st.expired_run htime e.world
  refine ⟨w', ?_⟩
  show ((expired os deadline e.world).1, { e with world := (expired os deadline e.world).2 }) = _
  rw [h]

/-- Lines the builder takes are counted one by one, up to the first over the limit. -/
theorem addLines_run : ∀ (lines : List Str) (builder : Gitignore) (e : Entering σ φ),
    e.scope.policyLines ≤ 4096 → Accepted engine builder lines →
    ∃ w', addLines engine os deadline builder lines e =
      if e.scope.policyLines + lines.length > 4096 then
        (.error .entryLimit, ⟨w', { e.scope with policyLines := 4097 }⟩)
      else (.ok { builder with lines := builder.lines ++ lines }, ⟨w', e.scope.addLines lines.length⟩)
  | [], builder, e, hle, _ => by
      refine ⟨e.world, ?_⟩
      rw [if_neg (by simpa using hle), List.append_nil]
      rfl
  | line :: lines, builder, e, hle, haccepted => by
      obtain ⟨w₁, h₁⟩ := inTime_entering st htime e
      let e₂ : Entering σ φ := ⟨w₁, e.scope.addLines 1⟩
      have hstep : addLines engine os deadline builder (line :: lines) e
          = (if e₂.scope.policyLines > 4096 then .fail .entryLimit
            else if engine.addLine builder line then
              addLines engine os deadline { builder with lines := builder.lines ++ [line] } lines
            else .fail .readFailed : Enter σ φ Gitignore) e₂ := by
        rw [addLines, bind_of_ok h₁]
        rfl
      rw [hstep, List.length_cons]
      by_cases hover : e.scope.policyLines + 1 > 4096
      · refine ⟨w₁, ?_⟩
        have hcount : e.scope.policyLines + 1 = 4097 := by omega
        have hfull : e₂.scope = { e.scope with policyLines := 4097 } :=
          congrArg (fun n => { e.scope with policyLines := n }) hcount
        rw [if_pos (show e₂.scope.policyLines > 4096 from hover), if_pos (by omega), ← hfull]
        rfl
      · -- the other lines start from a counter that is one higher
        rw [if_neg (show ¬e₂.scope.policyLines > 4096 from hover), if_pos haccepted.1]
        obtain ⟨w', h'⟩ := addLines_run lines { builder with lines := builder.lines ++ [line] } e₂
          (Nat.not_lt.1 hover) haccepted.2
        have hcount : e₂.scope.policyLines + lines.length = e.scope.policyLines + (lines.length + 1) := by
          show e.scope.policyLines + 1 + lines.length = _
          omega
        have hadd : e₂.scope.addLines lines.length = e.scope.addLines (lines.length + 1) :=
          congrArg (fun n => { e.scope with policyLines := n }) hcount
        refine ⟨w', h'.trans ?_⟩
        rw [hcount, hadd, List.append_assoc]
        rfl

/-- An ignore file that loads is recorded as the plan has it. -/
theorem load_simulates (filter : Filter) (dirs : List Str) {dir name : Str}
    (hv : PolicyValid engine tree dir name) :
    Simulates (Stands filter tree dirs) (load engine os deadline dir name)
      (Records.load (child dir name) (tree.policy (child dir name)))
      (fun (builder : Gitignore) (_ : Unit) e records => Stands filter tree dirs e records ∧
        builder = gitignoreOf dir (tree.policy (child dir name)))
      Refused := by
  rintro e _ ⟨rfl, hequipped⟩
  obtain ⟨w₁, h₁⟩ := st.policyBytes_run htime hv.found e.world
  have hlines := hv.lines
  have hbuilt := hv.built
  have htext := hv.text
  generalize hpolicy : tree.policy (child dir name) = bytes at h₁ hlines hbuilt htext ⊢
  have hio : Enter.io (policyBytes os deadline (child dir name)) e
      = (.ok bytes, { e with world := w₁ }) := by
    show ((policyBytes os deadline (child dir name) e.world).1, _) = _
    rw [h₁]
  let e₂ : Entering σ φ := ⟨w₁.note (.policy (child dir name) bytes), e.scope⟩
  have hload : load engine os deadline dir name e
      = (addFound engine os deadline (gitignoreOf dir none) bytes >>= fun builder => do
          .modify fun s => { s with
            scope.observations := observe (child dir name) bytes s.scope.observations }
          if engine.ignoreBuild builder then pure builder else .fail .readFailed) e₂ := by
    rw [load, bind_of_ok hio]
    rfl
  rw [hload]
  cases bytes with
  | none =>
    -- absent: nothing is added
    have hfound : addFound engine os deadline (gitignoreOf dir none) none e₂
        = (.ok (gitignoreOf dir none), e₂) := rfl
    refine ⟨gitignoreOf dir none, { e₂ with
      scope.observations := observe (child dir name) none e₂.scope.observations }, ?_, ⟨rfl, ?_⟩, rfl⟩
    · rw [bind_of_ok hfound]
      show (if engine.ignoreBuild (gitignoreOf dir none) then pure (gitignoreOf dir none)
        else .fail .readFailed : Enter σ φ Gitignore) _ = _
      rw [if_pos hbuilt]
      rfl
    · exact { hequipped with }
  | some content =>
    obtain ⟨text, hdecode⟩ := Option.isSome_iff_exists.1 (htext content rfl)
    have hlinesOf : linesOf (some content) = strLines text := by
      rw [linesOf, Option.bind_some, hdecode]
      rfl
    let e₃ : Entering σ φ := { e₂ with
      scope.policyBytes := e.scope.policyBytes + content.length }
    have hfound : addFound engine os deadline (gitignoreOf dir none) (some content) e₂
        = (if e.scope.policyBytes + content.length > 1048576 then .fail .entryLimit
          else addLines engine os deadline (gitignoreOf dir none) (linesOf (some content)) :
            Enter σ φ Gitignore) e₃ := by
      rw [hlinesOf]
      show (if e.scope.policyBytes + content.length > 1048576 then .fail .entryLimit
        else _ : Enter σ φ Gitignore) e₃ = _
      rw [hdecode]
    have hplan : Records.load (child dir name) (some content) e.scope.records
        = (if e.scope.policyBytes + content.length > 1048576 then do
            .modify fun s => { s with policyBytes := s.policyBytes + content.length }
            .fail .entryLimit
          else if e.scope.policyLines + linesIn (some content) > 4096 then do
            .modify fun s => { s with policyBytes := s.policyBytes + content.length, policyLines := 4097 }
            .fail .entryLimit
          else .modify (Records.add (child dir name) (some content)) : Exec Records Stop Unit)
            e.scope.records := rfl
    rw [hplan]
    by_cases hbytes : e.scope.policyBytes + content.length > 1048576
    · rw [if_pos hbytes] at hfound ⊢
      rw [bind_of_error hfound]
      exact ⟨rfl, rfl, rfl⟩
    · rw [if_neg hbytes] at hfound ⊢
      obtain ⟨w', hadded⟩ := addLines_run st htime (linesOf (some content)) (gitignoreOf dir none) e₃
        hequipped.lineBound hlines
      rw [hadded] at hfound
      by_cases hcount : e.scope.policyLines + linesIn (some content) > 4096
      · rw [if_pos hcount]
        rw [if_pos (show e₃.scope.policyLines + (linesOf (some content)).length > 4096 from hcount)] at hfound
        rw [bind_of_error hfound]
        exact ⟨rfl, rfl, rfl⟩
      · rw [if_neg hcount]
        rw [if_neg (show ¬e₃.scope.policyLines + (linesOf (some content)).length > 4096 from hcount)] at hfound
        refine ⟨gitignoreOf dir (some content), ⟨w', { e₃.scope.addLines (linesOf (some content)).length with
          observations := observe (child dir name) (some content) e.scope.observations }⟩, ?_, ⟨rfl, ?_⟩, rfl⟩
        · rw [bind_of_ok hfound]
          show (if engine.ignoreBuild (gitignoreOf dir (some content)) then
              pure (gitignoreOf dir (some content))
            else .fail .readFailed : Enter σ φ Gitignore) _ = _
          rw [if_pos hbuilt]
          rfl
        · exact { hequipped with
            byteBound := Nat.not_lt.1 hbytes
            lineBound := Nat.not_lt.1 hcount }

/-- Both ignore files of a directory, and its rules. -/
theorem enter_simulates {filter : Filter} {dirs : List Str} {dir : Str} (hon : filter.respectIgnore = true)
    (hgitignore : PolicyValid engine tree dir GITIGNORE) (hignore : PolicyValid engine tree dir IGNORE) :
    Simulates (Stands filter tree dirs) (enter engine os deadline dir)
      (Records.enter dir (tree.policy (child dir GITIGNORE)) (tree.policy (child dir IGNORE)))
      (fun _ _ => Stands filter tree (dir :: dirs)) Refused := by
  refine Simulates.get_left fun e₀ records₀ h₀ => ?_
  have hrespect : e₀.scope.respectIgnore = true := by
    rw [h₀.2.settings]
    exact hon
  rw [if_pos hrespect]
  refine Simulates.get_bind fun e _ he => ?_
  obtain ⟨rfl, rfl⟩ := he
  obtain ⟨rfl, hequipped⟩ := h₀
  refine Simulates.ite (fun _ => Simulates.fail ?_) fun _ => ?_
  · rintro _ _ ⟨rfl, rfl⟩
    exact ⟨rfl, rfl, rfl⟩
  · refine Simulates.con_pre ?_ (Simulates.bind (load_simulates st htime filter dirs hgitignore) (fun gitignore _ => ?_) ?_)
    · rintro _ _ ⟨rfl, rfl⟩
      exact ⟨rfl, hequipped⟩
    · refine Simulates.of_pre (fun _ _ h => h.2) fun hfirst => ?_
      rw [← Exec.bind_unit (Records.load _ _)]
      refine Simulates.con_pre (fun _ _ h => h.1)
        (Simulates.bind (load_simulates st htime filter dirs hignore) (fun ignore _ => ?_) ?_)
      · rintro e _ ⟨⟨rfl, hloaded⟩, hsecond⟩
        refine ⟨(), { e with scope.rules := e.scope.rules.insert dir { gitignore, ignore } }, rfl, rfl, ?_⟩
        have hcompiled : { gitignore, ignore } = tree.compiled dir := by rw [hfirst, hsecond, Node.compiled]
        rw [hcompiled]
        exact hloaded.insert dir
      · rintro _ _ _ _ ⟨-, hout, -⟩
        cases hout
    · rintro _ _ _ _ ⟨-, hout, -⟩
      cases hout

/-- A node that is no text, or too large for one, is no ignore file. -/
theorem policyBytes_broken {path : Str} {node : Node} (hnode : tree.lookup path = some node)
    (hpolicy : tree.policy path = none) (w : World σ φ) :
    ∃ w', policyBytes os deadline path w = (.error .readFailed, w') := by
  obtain ⟨w₁, h₁, -⟩ := st.expired_run htime w
  have ho := st.openat2 path w₁.os
  rw [hnode] at ho
  obtain ⟨fd, hfd, hfdnode⟩ := ho
  have hcall : os.doOpenPolicy path w₁
      = (.ok (.ok fd), (Os.asked (os.openat2 path) (.policyOpened path) w₁).2) := by
    rw [← hfd]
    rfl
  obtain ⟨w₃, h₃⟩ := st.capture_run htime fd 65536
    (Os.asked (os.openat2 path) (.policyOpened path) w₁).2
  have hread : node.readable 65536 = none := by
    rw [Node.policy, hnode] at hpolicy
    exact hpolicy
  rw [hfdnode, hread] at h₃
  have hattempt : (.attempt (capture os deadline fd 65536) : Io σ φ (Except Code (Option Bytes)))
      (Os.asked (os.openat2 path) (.policyOpened path) w₁).2 = (.ok (.ok none), w₃) := by
    rw [Exec.attempt_run, h₃]
  have hcontent : policyContent os deadline fd
      (Os.asked (os.openat2 path) (.policyOpened path) w₁).2 = (.error .readFailed, w₃) := by
    rw [policyContent, bind_of_ok hattempt]
    rfl
  refine ⟨w₃, ?_⟩
  rw [policyBytes, bind_of_ok h₁, bind_of_ok hcall]
  exact bind_of_error hcontent

/-- An ignore file that was loaded was one that loads. -/
theorem load_ok {dir name : Str} {e e' : Entering σ φ} {g : Gitignore}
    (h : load engine os deadline dir name e = (.ok g, e')) : PolicyValid engine tree dir name := by
  obtain ⟨bytes, e₁, hio, hrest⟩ := Exec.bind_ok h
  have hbytes : (policyBytes os deadline (child dir name) e.world).1 = .ok bytes := congrArg Prod.fst hio
  have hfound : tree.lookup (child dir name) = none ∨ (tree.policy (child dir name)).isSome = true := by
    cases hnode : tree.lookup (child dir name) with
    | none => exact .inl rfl
    | some node =>
      refine .inr (Option.isSome_iff_ne_none.2 fun hpolicy => ?_)
      obtain ⟨w', hbroken⟩ := policyBytes_broken st htime hnode hpolicy e.world
      rw [hbroken] at hbytes
      cases hbytes
  obtain ⟨w', hrun⟩ := st.policyBytes_run htime hfound e.world
  rw [hrun] at hbytes
  obtain rfl := Except.ok.inj hbytes
  obtain ⟨-, e₂, -, hrest⟩ := Exec.bind_ok hrest
  obtain ⟨builder, e₃, hadded, hrest⟩ := Exec.bind_ok hrest
  obtain ⟨-, hparses, rfl⟩ := (addFound_spec dir _ e₂.scope).ok rfl hadded
  obtain ⟨-, e₄, -, hrest⟩ := Exec.bind_ok hrest
  have hbuilt : engine.ignoreBuild (gitignoreOf dir (tree.policy (child dir name))) = true := by
    by_contra hno
    rw [if_neg hno] at hrest
    cases hrest
  exact { hparses with built := hbuilt, found := hfound }

theorem enterDir_ok {dir : Str} {e e' : Entering σ φ} (h : enterDir engine os deadline dir e = (.ok (), e')) :
    PolicyValid engine tree dir GITIGNORE ∧ PolicyValid engine tree dir IGNORE := by
  obtain ⟨e₁, e₂, hget, hrest⟩ := Exec.bind_ok h
  split at hrest
  case isTrue => cases hrest
  case isFalse =>
    obtain ⟨gitignore, e₃, hfirst, hrest⟩ := Exec.bind_ok hrest
    obtain ⟨ignore, e₄, hsecond, -⟩ := Exec.bind_ok hrest
    exact ⟨load_ok st htime hfirst, load_ok st htime hsecond⟩

end Policies

/-! ## §3 — files. -/

section Walk

variable {σ φ : Type} {job : Job σ φ} {tree : Node} {root : φ} (st : Static job.os tree root)
  (htime : ∀ s, (job.os.now s).1 < job.deadline) {filter : Filter} {dirs dirs' : List Str}

section Files

include st htime

theorem Follows.inTime {f : Unit → Work σ φ Unit} {p : Entry}
    (h : Follows filter tree dirs dirs' (f ()) p) :
    Follows filter tree dirs dirs' (Worker.inTime job >>= f) p :=
  Follows.io (P := fun _ => True)
    (fun w => by
      obtain ⟨w', hw, -⟩ := st.expired_run htime w
      exact ⟨(), w', hw, trivial⟩)
    fun _ _ => h

omit st htime in
theorem report_follows {path digest : Str} {bytes : Bytes} {start stop : Nat}
    (hcut : (isCharBoundary bytes start && isCharBoundary bytes stop) = true) :
    Follows filter tree dirs dirs (report job path digest bytes start stop)
      (Ledger.keep job.request (matchHit path digest bytes start stop)) := by
  refine Follows.get_bind fun s _ => ?_
  rw [if_neg (by rw [hcut]; simp)]
  refine Follows.ite (fun _ => Follows.fail rfl) fun _ => ?_
  refine Follows.get_bind fun s _ => Follows.ite (fun _ => Follows.fail rfl) fun _ => ?_
  exact Follows.modify (fun _ => rfl) fun _ => rfl

theorem findIter_follows (path digest : Str) (bytes : Bytes) : ∀ found : List (Nat × Nat),
    Follows filter tree dirs dirs (findIter job path digest bytes found)
      (Ledger.keepAll job.request path digest bytes found)
  | [] => Follows.pure
  | (start, stop) :: rest => by
      have hrest := findIter_follows path digest bytes rest
      refine Follows.inTime st htime ?_
      show Follows filter tree dirs dirs
        (if phantom bytes start then findIter job path digest bytes rest else _)
        (if phantom bytes start then Ledger.keepAll job.request path digest bytes rest else _)
      refine Follows.ite (fun _ => hrest) fun _ => ?_
      by_cases hcut : (isCharBoundary bytes start && isCharBoundary bytes stop) = true
      · rw [if_pos hcut]
        exact Follows.bind (report_follows hcut) hrest (stable_incomplete.keeps_findIter _ _ _ _)
      · rw [if_neg hcut]
        -- the callback stops at the match, and nothing comes behind it
        intro s l hs
        have hreport : report job path digest bytes start stop s = (.error .matchEncoding, s) := by
          show (if !(isCharBoundary bytes start && isCharBoundary bytes stop) then .fail .matchEncoding
            else _ : Work σ φ Unit) s = _
          rw [Bool.eq_false_iff.2 hcut]
          rfl
        show Given (Exec.failure ((report job path digest bytes start stop >>= fun _ =>
          findIter job path digest bytes rest) s).1) .matchEncoding _ l
        rw [bind_of_error hreport]
        exact ⟨rfl, hs.1⟩

omit st htime in
theorem readRange_follows (path digest : Str) (bytes : Bytes) (read : ReadRequest) :
    Follows filter tree dirs dirs (readRange job path digest bytes read)
      (Ledger.read job.request path digest bytes read) := by
  refine Follows.get_bind fun s _ => ?_
  refine Follows.ite (fun _ => Follows.fail rfl) fun _ => ?_
  refine Follows.ite (fun _ => Follows.fail rfl) fun _ => ?_
  refine Follows.ite (fun _ => Follows.fail rfl) fun _ => ?_
  exact Follows.modify (fun _ => rfl) fun _ => rfl

theorem searchBytes_follows (path : Str) (bytes : Bytes) :
    Follows filter tree dirs dirs (searchBytes job path bytes)
      (Ledger.search job.engine job.matcher job.request path bytes) := by
  unfold searchBytes Ledger.search
  refine Follows.inTime st htime ?_
  cases job.request.read with
  | some read =>
    refine Follows.bind (Follows.modify (fun _ => rfl) fun _ => rfl) (readRange_follows path _ bytes read) ?_
    exact stable_incomplete.keeps_readRange _ _ _ _
  | none =>
    refine Follows.bind (Follows.modify (fun _ => rfl) fun _ => rfl) ?_ ?_
    · exact Follows.ite (fun _ => Follows.pure) fun _ => findIter_follows st htime path _ bytes _
    · exact Exec.Triple.ite (fun _ => Keeps.pure _) fun _ => stable_incomplete.keeps_findIter _ _ _ _

/-- A file is captured as the tree has it. -/
theorem searchFile_follows (fd : φ) (path : Str) :
    Follows filter tree dirs dirs (searchFile job fd path)
      (Ledger.performAll job.engine job.matcher job.request (fileSteps job.request path (st.node fd))) := by
  unfold searchFile fileSteps
  by_cases hother : job.request.read.any (·.path ≠ path) = true
  · rw [if_pos hother, if_pos hother]
    exact Follows.pure
  · rw [if_neg hother, if_neg hother]
    refine Follows.attempt_io (P := (· = (st.node fd).readable job.request.maxFileBytes)) (fun w => ?_) ?_
    · obtain ⟨w', hw⟩ := st.captureTwice_run htime rfl rfl fd path w
      exact ⟨_, w', hw, rfl⟩
    · rintro _ rfl
      cases (st.node fd).readable job.request.maxFileBytes with
      | none =>
        rw [Ledger.performAll_one]
        exact Follows.modify (fun _ => rfl) fun _ => rfl
      | some bytes =>
        rw [Ledger.performAll_one]
        exact searchBytes_follows st htime path bytes

end Files

/-! ## §4 — the walk. -/

theorem Stop.code_ne_readFailed (stop : Stop) : stop.code ≠ some .readFailed := by
  cases stop <;> simp [Stop.code]

section Descend

variable {descend : φ → Str → Work σ φ Unit} {below : Node → Str → List Step}

/-- A walk one level down, as its plan; a failed read down there is an issue up here. -/
theorem descend_follows {fd : φ} {path : Str} {p : Entry}
    (h : Follows filter tree dirs dirs (descend fd path) p) :
    Follows filter tree dirs dirs (visitAllowed job descend path fd .directory) p := by
  rw [← Exec.bind_unit p]
  refine Simulates.attempt_bind h (fun _ _ => Follows.pure) fun o stop s l hgiven => ?_
  rcases o with code | ⟨⟩
  · cases code
    case readFailed =>
      unfold Given at hgiven ⊢
      cases hcode : stop.code with
      | none => exact .inr rfl
      | some code =>
        rw [hcode] at hgiven
        exact absurd (hcode.trans hgiven.1.symm) stop.code_ne_readFailed
    all_goals exact hgiven
  · exact hgiven

variable (hkeeps : ∀ fd dir, Taints (descend fd dir))

include st htime

/-- An entry that was opened and inspected. -/
theorem visitNode_follows {fd : φ} {path : Str} (hdirs : containing path ⊆ dirs)
    (hdescend : ∀ entries, st.node fd = .dir entries → Follows filter tree dirs dirs (descend fd path)
      (Ledger.performAll job.engine job.matcher job.request (below (st.node fd) path))) :
    Follows filter tree dirs dirs (visitNode job descend path fd (st.stat fd))
      (Ledger.performAll job.engine job.matcher job.request
        (nodeSteps job.engine filter job.request tree below path (st.node fd))) := by
  refine Follows.get_left fun s hs => Follows.note ?_
  have htype := st.stat_type fd
  unfold nodeSteps
  rw [hs.allows hdirs, htype]
  by_cases hin : inScope job.engine filter tree path ((st.node fd).fileType == .directory) = true
  · rw [if_pos hin, if_pos hin]
    have hfile : Follows filter tree dirs dirs (searchFile job fd path) _ :=
      searchFile_follows st htime fd path
    cases hnode : st.node fd with
    | dir entries =>
      have hbelow := hdescend entries hnode
      rw [hnode] at hbelow
      exact descend_follows hbelow
    | file bytes =>
      rw [hnode] at hfile
      exact hfile
    | other =>
      rw [Ledger.performAll_one]
      exact Follows.modify (fun _ => rfl) fun _ => rfl
  · rw [if_neg hin, if_neg hin, Ledger.performAll_one]
    exact Follows.modify (fun _ => rfl) fun _ => rfl

/-- An entry that was counted, in a directory of the tree. -/
theorem visitName_follows {dir : Str} {entries : List (DirName × Node)} (hdir : tree.Holds dir (.dir entries))
    (hdistinct : Node.Distinct (.dir entries)) (hdirs : above dir ⊆ dirs) {entry : DirName × Node}
    (hentry : entry ∈ entries)
    (hdescend : ∀ fd name, Utf8.decode entry.1.bytes = some name → validPath (child dir name) = true →
      st.node fd = entry.2 → ∀ inner, entry.2 = .dir inner →
      Follows filter tree dirs dirs (descend fd (child dir name))
        (Ledger.performAll job.engine job.matcher job.request (below entry.2 (child dir name)))) :
    Follows filter tree dirs dirs (visitName job descend dir entry.1)
      (Ledger.performAll job.engine job.matcher job.request
        (nameSteps job.engine filter job.request tree below dir entry)) := by
  have hexcluded : Follows filter tree dirs dirs (.modify (·.excluded) : Work σ φ Unit)
      (Ledger.performAll job.engine job.matcher job.request [.excluded]) := by
    rw [Ledger.performAll_one]
    exact Follows.modify (fun _ => rfl) fun _ => rfl
  unfold visitName nameSteps
  cases hname : Utf8.decode entry.1.bytes with
  | none => exact hexcluded
  | some name =>
    refine Follows.get_left fun s hs => ?_
    rw [hs.settings]
    dsimp only
    by_cases hout : (!validPath (child dir name) || filter.excludedPath (child dir name)) = true
    · rw [if_pos hout, if_pos hout]
      exact hexcluded
    · rw [if_neg hout, if_neg hout]
      by_cases haside : aside job.request (child dir name) = true
      · rw [if_pos haside, if_pos haside]
        exact Follows.pure
      · rw [if_neg haside, if_neg haside]
        have hvalid : validPath (child dir name) = true := by
          by_contra hno
          exact hout (by rw [Bool.eq_false_iff.2 hno]; rfl)
        have hlookup := hdir.entry hdistinct hname hentry
        have hcontaining : containing (child dir name) ⊆ dirs := by
          rw [containing_child (slash_notMem_name hname)]
          exact hdirs
        refine Follows.attempt_io (P := fun fd => st.node fd = entry.2)
          (fun w => st.anchor_run hlookup w) fun fd hfd => ?_
        refine Follows.attempt_io (P := (· = st.stat fd)) (fun w => ?_) ?_
        · obtain ⟨w', hw, -⟩ := st.fstat_run fd w
          exact ⟨_, w', hw, rfl⟩
        · rintro _ rfl
          rw [← hfd]
          refine visitNode_follows st htime hcontaining fun inner hinner => ?_
          rw [hfd] at hinner ⊢
          exact hdescend fd name hname hvalid hfd inner hinner

omit st htime in
include hkeeps in
theorem visit_follows {dir : Str} {entry : DirName × Node} (hdots : isDots entry.1 = false)
    (hname : Follows filter tree dirs dirs (visitName job descend dir entry.1)
      (Ledger.performAll job.engine job.matcher job.request
        (nameSteps job.engine filter job.request tree below dir entry))) :
    Follows filter tree dirs dirs (visit job descend dir entry.1)
      (Ledger.performAll job.engine job.matcher job.request
        (entrySteps job.engine filter job.request tree below dir entry)) := by
  have hplan : Ledger.performAll job.engine job.matcher job.request
        (entrySteps job.engine filter job.request tree below dir entry)
      = (.get >>= fun l => if l.result.counts.visited = job.request.maxEntries then .fail .entryLimit
        else .modify (fun l => { l with result := l.result.visited }) >>= fun _ =>
          Ledger.performAll job.engine job.matcher job.request
            (nameSteps job.engine filter job.request tree below dir entry)) := by
    rw [entrySteps, Ledger.performAll_cons]
    show (Ledger.visit job.request >>= _) = _
    rw [Ledger.visit, Exec.assoc]
    congr 1
    funext l
    split <;> rfl
  rw [hplan, visit, hdots]
  refine Follows.get_bind fun s _ => Follows.ite (fun _ => Follows.fail rfl) fun _ => ?_
  exact Follows.bind (Follows.modify (fun _ => rfl) fun _ => rfl) hname
    (stable_incomplete.keeps_visitName hkeeps dir entry.1)

include hkeeps in
/-- A directory, entry by entry. -/
theorem entries_follows {dir : Str} {stream : Stream σ} {names : List DirName} (hlists : Lists stream names) :
    ∀ {listed : List (DirName × Node)}, listed.map (·.1) = names →
    (∀ entry ∈ listed, Follows filter tree dirs dirs (visit job descend dir entry.1)
      (Ledger.performAll job.engine job.matcher job.request
        (entrySteps job.engine filter job.request tree below dir entry))) →
    Follows filter tree dirs dirs (entries job descend dir stream)
      (Ledger.performAll job.engine job.matcher job.request
        (listed.flatMap (entrySteps job.engine filter job.request tree below dir))) := by
  induction hlists with
  | done =>
    intro listed hnames _
    obtain rfl := List.map_eq_nil_iff.1 hnames
    exact fun s l hs => ⟨(), s.note (.entry dir .done), rfl, hs⟩
  | dots n rest names hdots lists ih =>
    intro listed hnames hentries
    refine Follows.note (Follows.inTime st htime ?_)
    rw [visit, if_pos hdots]
    show Follows filter tree dirs dirs
      (Exec.get >>= fun s => entries job descend dir (rest s.world.os)) _
    exact Follows.get_left fun s _ => ih s.world.os hnames hentries
  | name n rest names hdots lists ih =>
    intro listed hnames hentries
    cases listed with
    | nil => cases hnames
    | cons entry listed =>
      obtain ⟨rfl, hrest⟩ := List.cons.inj hnames
      refine Follows.note (Follows.inTime st htime ?_)
      rw [List.flatMap_cons, Ledger.performAll_append]
      refine Follows.bind (hentries entry List.mem_cons_self) ?_ ?_
      · exact Follows.get_left fun s _ => ih s.world.os hrest fun e he =>
          hentries e (List.mem_cons_of_mem _ he)
      · exact Keeps.get_bind fun s => stable_incomplete.keeps_entries hkeeps dir _

end Descend

include st htime

/-- Entering a directory. -/
theorem entering_follows (dir : Str) :
    Follows filter tree dirs (dir :: dirs)
      (Work.entering (enter job.engine job.os job.deadline dir))
      (Ledger.performAll job.engine job.matcher job.request (enterSteps job.engine filter tree dir)) := by
  unfold enterSteps
  by_cases hon : filter.respectIgnore = true
  · rw [if_pos hon]
    split
    case isTrue hvalid =>
      rw [Ledger.performAll_one]
      show Simulates (Mirrors filter tree dirs)
        (Exec.onPart (fun s : State σ φ => Entering.mk s.world s.scope)
          (fun e s => { s with world := e.world, scope := e.scope })
          (enter job.engine job.os job.deadline dir))
        (Exec.onPart Ledger.records (fun records l => { l with records }) (Records.enter dir _ _))
        (fun _ _ => Mirrors filter tree (dir :: dirs)) Given
      have henter : Simulates (Stands filter tree dirs) _ _ _ _ :=
        enter_simulates st htime hon hvalid.1 hvalid.2
      refine Simulates.onPart henter ?_ ?_ ?_
      · rintro s _ ⟨rfl, hs⟩
        exact ⟨rfl, hs⟩
      · rintro s _ ⟨⟩ ⟨⟩ e _ ⟨rfl, -⟩ ⟨rfl, he⟩
        exact ⟨rfl, he⟩
      · rintro s _ out stop e _ ⟨rfl, -⟩ ⟨rfl, rfl, rfl⟩
        exact ⟨rfl, rfl⟩
    case isFalse hbroken =>
      rw [Ledger.performAll_one]
      rintro s l ⟨rfl, hs⟩
      -- an `enter` that ended well would have loaded both files
      refine .inl ?_
      have hrespect : s.scope.respectIgnore = true := by
        rw [hs.settings]
        exact hon
      have henter : enter job.engine job.os job.deadline dir ⟨s.world, s.scope⟩
          = enterDir job.engine job.os job.deadline dir ⟨s.world, s.scope⟩ := by
        show (if s.scope.respectIgnore then enterDir job.engine job.os job.deadline dir else pure ()) _ = _
        rw [if_pos hrespect]
      show (Exec.failure (enter job.engine job.os job.deadline dir ⟨s.world, s.scope⟩).1).isSome = true
      rw [henter]
      rcases hrun : enterDir job.engine job.os job.deadline dir ⟨s.world, s.scope⟩ with ⟨code | ⟨⟩, e⟩
      · rfl
      · exact absurd (enterDir_ok st htime hrun) hbroken
  · rw [if_neg hon]
    rintro s l ⟨rfl, hs⟩
    refine ⟨(), s, ?_, rfl, { hs with known := fun h => absurd h hon }⟩
    have hoff : ¬s.scope.respectIgnore = true := by
      rw [hs.settings]
      exact hon
    have henter : enter job.engine job.os job.deadline dir ⟨s.world, s.scope⟩
        = (.ok (), ⟨s.world, s.scope⟩) := by
      show (if s.scope.respectIgnore then enterDir job.engine job.os job.deadline dir else pure ()) _ = _
      rw [if_neg hoff]
      rfl
    show ((enter job.engine job.os job.deadline dir ⟨s.world, s.scope⟩).1, _) = _
    rw [henter]

/-- **A walk follows its plan**: what the source does to the state of a walk is what the steps of the
tree do to the ledger, and it ends as they end. -/
theorem walk_follows : ∀ (levels : Nat) {fd : φ} {listed : List (DirName × Node)} {dir : Str}
    {dirs : List Str}, st.node fd = .dir listed → tree.Holds dir (.dir listed) →
    Node.Distinct (.dir listed) → above dir ⊆ dir :: dirs →
    Follows filter tree dirs dirs (walk job levels fd dir)
      (Ledger.performAll job.engine job.matcher job.request
        (plan job.engine filter job.request tree levels (.dir listed) dir))
  | 0, fd, listed, dir, dirs, _, _, _, _ => by
      refine Follows.inTime st htime ?_
      show Follows filter tree dirs dirs _ (Ledger.performAll job.engine job.matcher job.request [.tooDeep])
      rw [Ledger.performAll_one]
      exact Follows.modify (fun _ => rfl) fun _ => rfl
  | levels + 1, fd, listed, dir, dirs, hnode, hholds, hdistinct, habove => by
      have hkeeps : ∀ fd dir, Taints (walk job levels fd dir) := stable_incomplete.keeps_walk levels
      cases hdistinct with
      | dir _ names hdots hbelow =>
      rw [plan_dir, Ledger.performAll_append]
      refine Follows.inTime st htime ?_
      refine Follows.bind (entering_follows st htime dir) ?_ ?_
      · refine Follows.io (P := fun stream => Lists stream (listed.map (·.1)))
          (fun w => st.openDir_run rfl hnode hdots w) fun stream hlists => ?_
        suffices h : Follows filter tree (dir :: dirs) (dir :: dirs) (entries job (walk job levels) dir stream) _ from
          h.mono (List.subset_cons_self dir dirs)
        refine entries_follows st htime hkeeps hlists rfl fun entry hentry => ?_
        refine visit_follows hkeeps (hdots entry hentry) ?_
        refine visitName_follows st htime hholds (.dir listed names hdots hbelow) habove hentry ?_
        intro fd' name hname hvalid hfd inner hinner
        -- one level down
        have hlookup := hholds.entry (.dir listed names hdots hbelow) hname hentry
        have hne : child dir name ≠ [] := by
          rintro hnil
          rw [hnil] at hvalid
          cases hvalid
        rw [hinner] at hfd hlookup ⊢
        refine walk_follows levels hfd ?_ (hinner ▸ hbelow entry hentry) ?_
        · unfold Node.Holds
          rw [if_neg hne]
          exact hlookup
        · rw [above_of_ne hne, containing_child (slash_notMem_name hname)]
          exact List.cons_subset_cons _ habove
      · refine Keeps.bind (stable_incomplete.io _) fun stream => ?_
        exact stable_incomplete.keeps_entries hkeeps dir stream

end Walk

/-! ## §5 — `search`. -/

/-- What `search` does with an error of its walk. -/
def sorted {σ φ : Type} (job : Job σ φ) (code : Code) : Work σ φ Unit := do
  let s ← .get
  if job.request.read.isSome || code == .regexInvalid || code == .matchEncoding
      || (code == .deadline && s.result.hits.isEmpty) then
    .fail code
  else
    .modify fun s => (if code = .readFailed ∨ code = .sourceMutated then s.failed else s).issue code

section Search

variable {σ φ : Type} {job : Job σ φ} {tree : Node} (st : Static job.os tree job.root)
  (htime : ∀ s, (job.os.now s).1 < job.deadline) {filter : Filter}

/-- A plan that was given up while the walk went on. -/
theorem unsorted_follows (stop : Stop) :
    Simulates (Given none stop) (pure () : Work σ φ Unit) (Ledger.sorted job.request stop)
      (fun (_ _ : Unit) s l => s.ledger = l) Given := by
  intro s l hgiven
  unfold Given at hgiven
  cases hcode : stop.code with
  | some code =>
    rw [hcode] at hgiven
    cases hgiven.1
  | none =>
    have hplan : Ledger.sorted job.request stop l = (.error stop, l) := by
      rw [Ledger.sorted, hcode]
      rfl
    rw [hplan]
    show Given none stop s l
    unfold Given
    rw [hcode] at hgiven ⊢
    exact hgiven

/-- The walk's error and the plan's stop are sorted alike. -/
theorem sorted_follows (code : Code) (stop : Stop) :
    Simulates (Given (some code) stop) (sorted job code) (Ledger.sorted job.request stop)
      (fun (_ _ : Unit) s l => s.ledger = l) Given := by
  intro s l hgiven
  unfold Given at hgiven
  cases hcode : stop.code with
  | none =>
    have hplan : Ledger.sorted job.request stop l = (.error stop, l) := by
      rw [Ledger.sorted, hcode]
      rfl
    rw [hplan]
    show Given (Exec.failure (sorted job code s).1) stop (sorted job code s).2 l
    unfold Given
    rw [hcode]
    by_cases hfatal : (job.request.read.isSome || code == .regexInvalid || code == .matchEncoding
        || (code == .deadline && s.result.hits.isEmpty)) = true
    · left
      show (Exec.failure ((if _ then _ else _ : Work σ φ Unit) s).1).isSome = true
      rw [if_pos hfatal]
      rfl
    · right
      show ((if _ then _ else _ : Work σ φ Unit) s).2.result.coverage = .incomplete
      rw [if_neg hfatal]
      rfl
  | some code' =>
    rw [hcode] at hgiven
    obtain ⟨hsame, rfl⟩ := hgiven
    obtain rfl := Option.some.inj hsame
    -- a stop of the plan is neither an expired deadline nor a failed read
    have hfatal : (job.request.read.isSome || code == .regexInvalid || code == .matchEncoding
        || (code == .deadline && s.result.hits.isEmpty)) = (job.request.read.isSome || code == .matchEncoding) := by
      cases stop <;> cases hcode <;> cases job.request.read.isSome <;> rfl
    have hplain : ¬(code = .readFailed ∨ code = .sourceMutated) := by
      cases stop <;> cases hcode <;> simp
    have hwalk : sorted job code s = (if job.request.read.isSome || code == .matchEncoding then .fail code
        else .modify (·.issue code) : Work σ φ Unit) s := by
      show (if _ then _ else _ : Work σ φ Unit) s = _
      rw [hfatal]
      simp only [if_neg hplain]
    have hplan : Ledger.sorted job.request stop
        = if job.request.read.isSome || code == .matchEncoding then .fail stop
          else .modify fun l => { l with result := l.result.issue code } := by
      rw [Ledger.sorted, hcode]
    rw [hwalk, hplan]
    refine Simulates.ite (R := (fun s' l => s' = s ∧ l = s.ledger)) (fun _ => Simulates.fail ?_)
      (fun _ => Simulates.modify ?_) s s.ledger ⟨rfl, rfl⟩
    · rintro _ _ ⟨rfl, rfl⟩
      unfold Given
      rw [hcode]
      exact ⟨rfl, rfl⟩
    · rintro _ _ ⟨rfl, rfl⟩
      rfl

include st htime

/-- The walk of `search` with its error sorted. -/
theorem traverse_follows {listed : List (DirName × Node)} (htree : tree = .dir listed)
    (hdistinct : tree.Distinct) :
    Simulates (Mirrors filter tree []) (traverse job)
      (Ledger.traverse job.engine job.matcher job.request
        (plan job.engine filter job.request tree (job.request.maxDepth + 1) tree []))
      (fun (_ _ : Unit) s l => s.ledger = l) Given := by
  subst htree
  have hwalk : Follows filter (.dir listed) [] [] (if job.request.validateScopeOnly then pure ()
        else walk job (job.request.maxDepth + 1) job.root [])
      (if job.request.validateScopeOnly then pure ()
        else Ledger.performAll job.engine job.matcher job.request
          (plan job.engine filter job.request (.dir listed) (job.request.maxDepth + 1) (.dir listed) [])) :=
    Follows.ite (fun _ => Follows.pure) fun _ =>
      walk_follows st htime _ st.node_root rfl hdistinct (List.Subset.refl _)
  refine Simulates.attempt_both hwalk (fun _ _ => Simulates.pure fun _ _ h => h.1) fun o stop => ?_
  rcases o with code | ⟨⟩
  · exact sorted_follows code stop
  · exact unsorted_follows stop

omit st htime in
theorem taints_revalidate : Taints (revalidate job) := by
  refine Keeps.get_bind fun s => Keeps.attempt_bind (stable_incomplete.io _) (fun _ => Keeps.pure _) ?_
  exact fun code => Keeps.modify fun s hs => stable_incomplete.issue code s hs

omit st htime in
/-- A walk that is not complete comes to nothing complete. -/
theorem conclude_incomplete {started : Nat} {s : State σ φ}
    (h : (Exec.failure (traverse job s).1).isSome = true ∨
      (traverse job s).2.result.coverage = .incomplete) {success : Success}
    (hok : (conclude job started s).1 = .ok success) : success.coverage = .incomplete := by
  have hwalk : Exec.Triple (· = s) (traverse job) (fun _ s' => s'.result.coverage = .incomplete)
      (fun _ _ => True) := by
    rintro _ rfl
    rcases hrun : traverse job _ with ⟨code | ⟨⟩, s'⟩ <;> rw [hrun] at h
    · trivial
    · exact h.resolve_left Bool.false_ne_true
  have hconclude : Exec.Triple (· = s) (conclude job started)
      (fun success _ => success.coverage = .incomplete) (fun _ _ => True) := by
    have htaints : Exec.Triple (fun s : State σ φ => s.result.coverage = .incomplete) (revalidate job)
        (fun _ s' => s'.result.coverage = .incomplete) (fun _ _ => True) :=
      Exec.Triple.con (fun _ hs => hs) taints_revalidate (fun _ _ hs => hs) fun _ _ _ => trivial
    refine Exec.Triple.bind hwalk fun _ => Exec.Triple.bind htaints fun _ => ?_
    refine Exec.Triple.get_bind fun s₀ hs₀ => Exec.Triple.ite (fun _ => Exec.Triple.fail fun _ _ => trivial)
      fun _ => Exec.Triple.ite (fun _ => Exec.Triple.fail fun _ _ => trivial) fun _ => ?_
    intro s' _
    exact hs₀
  have hs := hconclude s rfl
  rcases hrun : conclude job started s with ⟨code | success', s'⟩ <;> rw [hrun] at hok hs
  · cases hok
  · obtain rfl := Except.ok.inj hok
    exact hs

/-- `search` behind its walk. -/
theorem conclude_planned {listed : List (DirName × Node)} (htree : tree = .dir listed)
    (hdistinct : tree.Distinct) {s : State σ φ} {l : Ledger} (hs : Mirrors filter tree [] s l)
    (hl : Genuine tree l.records) (started : Nat) :
    match carriedOut job.engine job.matcher filter job.request tree l with
    | some outcome => (conclude job started s).1.map Success.timeless = outcome
    | none => ∀ success, (conclude job started s).1 = .ok success → success.coverage = .incomplete := by
  have hwalk := traverse_follows st htime htree hdistinct s l hs
  have hkeeps : Keeps (fun l => Genuine tree l.records) (Ledger.traverse job.engine job.matcher job.request
      (plan job.engine filter job.request tree (job.request.maxDepth + 1) tree [])) :=
    genuine_traverse _ _ _
  have hgenuine := hkeeps l hl
  unfold carriedOut
  rcases hplan : Ledger.traverse job.engine job.matcher job.request
      (plan job.engine filter job.request tree (job.request.maxDepth + 1) tree []) l with ⟨stop | ⟨⟩, l'⟩
  · rw [hplan] at hwalk
    change Given _ stop _ l' at hwalk
    unfold Given at hwalk
    dsimp only
    cases hcode : stop.code with
    | none =>
      -- a stop that has no code of its own leaves nothing complete
      rw [hcode] at hwalk
      exact fun success hok => conclude_incomplete hwalk hok
    | some code =>
      rw [hcode] at hwalk
      obtain ⟨hfailed, -⟩ := hwalk
      rcases hrun : traverse job s with ⟨code' | ⟨⟩, s'⟩ <;> rw [hrun] at hfailed
      · obtain rfl := Option.some.inj hfailed
        show (conclude job started s).1.map Success.timeless = .error code'
        rw [conclude, bind_of_error hrun]
        rfl
      · cases hfailed
  · rw [hplan] at hwalk hgenuine
    obtain ⟨⟨⟩, s₁, hrun, rfl⟩ := hwalk
    -- what was observed of the tree is found again
    obtain ⟨w', hverify⟩ := st.verify_run htime s₁.scope.observations s₁.world hgenuine
    have hrevalidate : revalidate job s₁ = (.ok (), { s₁ with world := w' }) := by
      have hio : Work.io (verify job.os job.deadline s₁.scope.observations) s₁
          = (.ok (), { s₁ with world := w' }) := by
        show ((verify job.os job.deadline s₁.scope.observations s₁.world).1,
          { s₁ with world := (verify job.os job.deadline s₁.scope.observations s₁.world).2 }) = _
        rw [hverify]
      rw [revalidate, bind_of_ok (Exec.get_run s₁), bind_of_ok (Exec.attempt_run _ s₁), hio]
      rfl
    rw [conclude, bind_of_ok hrun, bind_of_ok hrevalidate]
    show ((if job.request.read.isSome && !s₁.result.reasons.isEmpty then
        .fail (s₁.result.reasons.headD .invalidRequest)
      else if job.request.read.isSome && s₁.result.hits.isEmpty then .fail .outOfScope
      else _ : Work σ φ Success) _).1.map Success.timeless = _
    show _ = (if job.request.read.isSome && !s₁.result.reasons.isEmpty then
        .error (s₁.result.reasons.headD .invalidRequest)
      else if job.request.read.isSome && s₁.result.hits.isEmpty then .error .outOfScope
      else .ok { s₁.result with
        policySnapshotHash := snapshotHash job.engine s₁.scope.observations
        elapsedMs := .nat 0 } : Except Code Success)
    split
    · rfl
    · split <;> rfl

end Search

/-- A new scope has no rules and no records. -/
theorem new_equipped {engine : Engine} {input : ScopeInput} {scope : Scope}
    (h : Scope.new engine input = .ok scope) (tree : Node) :
    scope.records = {} ∧ Equipped scope.toFilter tree [] scope := by
  unfold Scope.new at h
  split at h
  · cases h
  · rcases hg : input.includeGroups.mapM (globs engine) with _ | groups
    · rw [hg] at h
      cases h
    · rw [hg] at h
      rcases he : globs engine input.exclude with _ | exclude
      · rw [he] at h
        cases h
      · rw [he] at h
        cases h
        refine ⟨rfl, rfl, fun d compiled hd => ?_, fun _ d hd => ?_, Nat.zero_le _, Nat.zero_le _⟩
        · cases hd
        · cases hd

/-- **A search comes to what its tree says**: on any system that shows the tree, with a deadline that
does not pass, it returns what the plan comes to, whatever the handles are, however the files are read
and wherever the streams have their dots. Where an ignore file does not load it returns nothing complete. -/
theorem search_planned {σ φ : Type} (engine : Engine) {os : Os σ φ} {root : φ}
    {listed : List (DirName × Node)} (st : Static os (.dir listed) root)
    (hdistinct : Node.Distinct (.dir listed)) {r : Request} {w : World σ φ}
    (htime : ∀ s, (os.now s).1 < (os.now w.os).1 + r.deadlineMs * 1000000) :
    match planned engine r (.dir listed) with
    | some outcome => (search engine os root r w).1.map Success.timeless = outcome
    | none => ∀ success, (search engine os root r w).1 = .ok success → success.coverage = .incomplete := by
  unfold planned search
  rcases hvalid : validate r with code | ⟨⟩
  · rfl
  cases hmatcher : engine.matcher r.pattern r.kind r.caseSensitive with
  | none => rfl
  | some matcher =>
    rcases hscope : Scope.new engine r.scope with code | scope
    · rfl
    obtain ⟨hrecords, hequipped⟩ := new_equipped hscope (.dir listed)
    let job : Job σ φ :=
      { engine, os, root, request := r, deadline := (os.now w.os).1 + r.deadlineMs * 1000000, matcher }
    let s₀ : State σ φ :=
      { world := { w with os := (os.now w.os).2 }, scope, result := Success.empty r.id, usedBytes := 2048 }
    have hmirrors : Mirrors scope.toFilter (.dir listed) [] s₀ (Ledger.start r) := by
      refine ⟨?_, hequipped⟩
      rw [Ledger.start, ← hrecords]
      rfl
    have hdeadline : ∀ s, (job.os.now s).1 < job.deadline := htime
    exact conclude_planned (show Static job.os (.dir listed) job.root from st) hdeadline rfl hdistinct
      hmirrors (fun o ho => absurd ho List.not_mem_nil) (os.now w.os).1

end JevGrep.Worker
