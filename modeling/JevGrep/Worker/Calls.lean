/-
# `JevGrep.Worker.Calls` — what the calls of the worker can end in.

Whatever the system answers, a call of the worker only adds to the log, fails with one of a few codes,
and returns captured bytes that are a text within the limit. §1 the rules; §2 the calls on files;
§3 ignore files; §4 `enter`.
-/
import JevGrep.Worker.Search

namespace JevGrep.Worker

open JevGrep.Lib
open Exec (Triple bind_ok)

variable {σ φ α β : Type}

/-! ## §1 — the rules. -/

/-- A call of the system, or the end of a capture: what a part of the worker that only talks to the
system can add to the log. -/
def Event.IsCall : Event φ → Prop
  | .entry .. | .policy .. | .checked .. | .searched _ => False
  | _ => True

/-- The log continues `before`, by calls. -/
def Grown (before : List (Event φ)) (w : World σ φ) : Prop :=
  ∃ calls, w.log = before ++ calls ∧ ∀ e ∈ calls, e.IsCall

namespace Grown

variable {before : List (Event φ)} {w : World σ φ}

theorem refl (w : World σ φ) : Grown w.log w := ⟨[], (List.append_nil _).symm, by simp⟩

theorem le (h : Grown before w) : before <+: w.log := by
  obtain ⟨calls, hw, -⟩ := h
  rw [hw]
  exact List.prefix_append before calls

/-- One more call. -/
theorem add {e : Event φ} (he : e.IsCall) (h : Grown before w) {w' : World σ φ}
    (hw' : w'.log = w.log ++ [e]) : Grown before w' := by
  obtain ⟨calls, hw, hcalls⟩ := h
  refine ⟨calls ++ [e], by rw [hw', hw, List.append_assoc], fun x hx => ?_⟩
  rcases List.mem_append.1 hx with hx | hx
  · exact hcalls x hx
  · rw [List.mem_singleton.1 hx]
    exact he

end Grown

/-- The call only adds calls to the log, returns a value with `Q`, and fails with one of `codes`. -/
def Safe (codes : List Code) (Q : α → Prop) (m : Io σ φ α) : Prop :=
  ∀ before, Triple (Grown before) m (fun a w => Grown before w ∧ Q a)
    fun e w => Grown before w ∧ e ∈ codes

namespace Safe

variable {codes codes' : List Code} {Q : α → Prop} {R : β → Prop} {m : Io σ φ α}

theorem pure {a : α} (h : Q a) : Safe codes Q (pure a : Io σ φ α) := fun _ =>
  Triple.pure fun _ hw => ⟨hw, h⟩

theorem fail {e : Code} (h : e ∈ codes) : Safe codes Q (.fail e : Io σ φ α) := fun _ =>
  Triple.fail fun _ hw => ⟨hw, h⟩

theorem bind {f : α → Io σ φ β} (hm : Safe codes Q m) (hf : ∀ a, Q a → Safe codes R (f a)) :
    Safe codes R (m >>= f) := fun before =>
  Triple.bind (hm before) fun a w hw => hf a hw.2 before w hw.1

theorem attempt_bind {f : Except Code α → Io σ φ β} (hm : Safe codes' Q m)
    (hok : ∀ a, Q a → Safe codes R (f (.ok a))) (herr : ∀ e ∈ codes', Safe codes R (f (.error e))) :
    Safe codes R (.attempt m >>= f) := fun before =>
  Triple.attempt_bind (hm before) (fun a w hw => hok a hw.2 before w hw.1)
    fun e w hw => herr e hw.2 before w hw.1

theorem mono (h : Safe codes Q m) (hsub : codes ⊆ codes') : Safe codes' Q m := fun before =>
  Triple.con (fun _ hw => hw) (h before) (fun _ _ hw => hw) fun _ _ hw => ⟨hw.1, hsub hw.2⟩

theorem ite {c : Prop} [Decidable c] {m' : Io σ φ α} (ht : c → Safe codes Q m)
    (hf : ¬c → Safe codes Q m') : Safe codes Q (if c then m else m') := fun before =>
  Triple.ite (fun hc => ht hc before) fun hc => hf hc before

/-- A call of the system is recorded at the end of the log. -/
theorem asked {f : σ → α × σ} {record : α → Event φ} (h : ∀ a, (record a).IsCall) :
    Safe codes (fun _ => True) (.call (Os.asked f record) : Io σ φ α) := fun _ =>
  Triple.call fun _ hw => ⟨hw.add (h _) rfl, trivial⟩

theorem orReadFailed (h : Code.readFailed ∈ codes) : ∀ a : Option α,
    Safe codes (fun _ => True) (Worker.orReadFailed a : Io σ φ α)
  | some _ => Safe.pure trivial
  | none => Safe.fail h

theorem recorded {record : Except Code α → Event φ} (hm : Safe codes Q m)
    (h : ∀ r, (record r).IsCall) : Safe codes Q (recorded record m) := by
  intro before w hw
  have hms := hm before w hw
  rcases hr : m w with ⟨e | a, w'⟩
  · have hrun : Worker.recorded record m w = (.error e, w'.note (record (.error e))) := by
      rw [Worker.recorded, hr]
    rw [hr] at hms
    rw [hrun]
    exact ⟨hms.1.add (h _) rfl, hms.2⟩
  · have hrun : Worker.recorded record m w = (.ok a, w'.note (record (.ok a))) := by
      rw [Worker.recorded, hr]
    rw [hr] at hms
    rw [hrun]
    exact ⟨hms.1.add (h _) rfl, hms.2⟩

end Safe

/-! ## §2 — the calls on files. -/

section Files

variable {os : Os σ φ} {deadline : Nat} {codes : List Code}

theorem safe_expired (h : Code.deadline ∈ codes) :
    Safe codes (fun _ => True) (expired os deadline) := by
  intro before
  refine Triple.bind (Q := fun _ => Grown before) (Triple.call fun _ hw => hw) fun now => ?_
  exact Triple.ite (fun _ => Triple.fail fun _ hw => ⟨hw, h⟩) fun _ =>
    Triple.pure fun _ hw => ⟨hw, trivial⟩

theorem safe_anchor (h : Code.readFailed ∈ codes) (path : Str) :
    Safe codes (fun _ => True) (anchor os path) := by
  refine (Safe.asked fun _ => by exact trivial).bind fun r _ => ?_
  rcases r with errno | fd
  · exact Safe.fail h
  · exact Safe.pure trivial

theorem safe_reopen (h : Code.readFailed ∈ codes) (fd : φ) (directory : Bool) :
    Safe codes (fun _ => True) (reopen os fd directory) :=
  (Safe.asked fun _ => by exact trivial).bind fun r _ => Safe.orReadFailed h r

theorem safe_fstat (h : Code.readFailed ∈ codes) (fd : φ) :
    Safe codes (fun _ => True) (fstat os fd) :=
  (Safe.asked fun _ => by exact trivial).bind fun r _ => Safe.orReadFailed h r

theorem safe_readChunk (h : Code.readFailed ∈ codes) (fd : φ) (wanted : Nat) :
    Safe codes (fun _ => True) (readChunk os fd wanted) :=
  (Safe.asked fun _ => by exact trivial).bind fun r _ => Safe.orReadFailed h r

/-- The codes a capture fails with. -/
def captureCodes : List Code := [.deadline, .readFailed, .sourceMutated]

/-- What a capture returns: nothing, or a text within the limit. -/
def Within (limit : Nat) (content : Option Bytes) : Prop :=
  ∀ bytes, content = some bytes → bytes.length ≤ limit ∧ isText bytes = true

theorem safe_readAll (fd : φ) (limit : Nat) : ∀ (rounds : Nat) (bytes : Bytes), bytes.length ≤ limit →
    Safe captureCodes (fun read => read.length ≤ limit) (readAll os deadline fd limit rounds bytes)
  | 0, _, _ => Safe.fail (by decide)
  | rounds + 1, bytes, hle => by
      refine (safe_expired (by decide)).bind fun _ _ => (safe_readChunk (by decide) _ _).bind
        fun chunk _ => ?_
      refine Safe.ite (fun _ => Safe.pure hle) fun _ => ?_
      exact Safe.ite (fun _ => Safe.fail (by decide)) fun hfits =>
        safe_readAll fd limit rounds _ (Nat.not_lt.1 hfits)

theorem safe_inspect (fd : φ) (limit : Nat) :
    Safe captureCodes (Within limit) (inspect os deadline fd limit) := by
  refine (safe_expired (by decide)).bind fun _ _ => (safe_fstat (by decide) fd).bind fun stat _ => ?_
  refine Safe.ite (fun _ => Safe.pure fun _ h => by cases h) fun _ => ?_
  refine (safe_expired (by decide)).bind fun _ _ => (safe_reopen (by decide) fd false).bind
    fun readable _ => (safe_fstat (by decide) readable).bind fun opened _ => ?_
  refine Safe.ite (fun _ => Safe.fail (by decide)) fun _ => ?_
  refine (safe_readAll readable limit _ [] (Nat.zero_le _)).bind fun bytes hle =>
    (safe_fstat (by decide) readable).bind fun after _ => ?_
  refine Safe.ite (fun _ => Safe.fail (by decide)) fun _ => Safe.pure ?_
  intro bytes' h
  split at h
  case isTrue htext =>
    cases h
    exact ⟨hle, htext⟩
  case isFalse => cases h

theorem safe_capture (fd : φ) (limit : Nat) :
    Safe captureCodes (Within limit) (capture os deadline fd limit) :=
  (safe_inspect fd limit).recorded fun _ => trivial

/-- A capture ends the log. -/
theorem captured_mem {fd : φ} {limit : Nat} {w w' : World σ φ} {r : Except Code (Option Bytes)}
    (h : capture os deadline fd limit w = (r, w')) : Event.captured fd r ∈ w'.log := by
  simp only [capture, recorded, Prod.mk.injEq] at h
  obtain ⟨rfl, rfl⟩ := h
  exact List.mem_append_right _ (List.mem_singleton_self _)

theorem safe_captureTwice (job : Job σ φ) (fd : φ) (path : Str) :
    Safe captureCodes (Within job.request.maxFileBytes) (captureTwice job fd path) := by
  refine (safe_capture fd _).attempt_bind (fun content h => Safe.pure h) fun code hcode => ?_
  cases code
  case sourceMutated =>
    exact (safe_anchor (by decide) path).bind fun fresh _ => safe_capture fresh _
  all_goals exact Safe.fail hcode

theorem captureTwice_mem {job : Job σ φ} {fd : φ} {path : Str} {w w' : World σ φ}
    {content : Option Bytes} (h : captureTwice job fd path w = (.ok content, w')) :
    ∃ fd, Event.captured fd (.ok content) ∈ w'.log := by
  obtain ⟨r, w₁, h₁, h⟩ := bind_ok h
  obtain ⟨hr, hw₁⟩ := Prod.mk.inj h₁
  rcases r with code | first
  · cases code
    case sourceMutated =>
      obtain ⟨fresh, w₂, -, h⟩ := bind_ok h
      exact ⟨fresh, captured_mem h⟩
    all_goals cases h
  · obtain ⟨hc, rfl⟩ := Prod.mk.inj h
    cases hc
    exact ⟨fd, captured_mem (Prod.ext (Except.ok.inj hr) hw₁)⟩

theorem safe_openDir (job : Job σ φ) (fd : φ) :
    Safe [.readFailed] (fun _ => True) (openDir job fd) :=
  (safe_reopen (by decide) fd true).bind fun _ _ => (Safe.asked fun _ => by exact trivial).bind fun r _ =>
    Safe.orReadFailed (by decide) r

/-! ## §3 — ignore files. -/

/-- The codes an ignore file fails with. -/
def policyCodes : List Code := [.deadline, .readFailed, .policyChanged]

theorem safe_policyContent (fd : φ) : Safe policyCodes
    (fun bytes => bytes.length ≤ 65536 ∧ isText bytes = true) (policyContent os deadline fd) := by
  refine (safe_capture fd 65536).attempt_bind ?_ fun code hcode => ?_
  · rintro (_ | bytes) h
    · exact Safe.fail (by decide)
    · exact Safe.pure (h bytes rfl)
  · cases code
    case sourceMutated => exact Safe.fail (by decide)
    case deadline => exact Safe.fail (by decide)
    case readFailed => exact Safe.fail (by decide)
    all_goals exact absurd hcode (by decide)

theorem safe_policyBytes (path : Str) :
    Safe policyCodes (Within 65536) (policyBytes os deadline path) := by
  refine (safe_expired (by decide)).bind fun _ _ => (Safe.asked fun _ => by exact trivial).bind fun r _ => ?_
  rcases r with (_ | _) | fd
  · exact Safe.pure fun _ h => by cases h
  · exact Safe.fail (by decide)
  · refine (safe_policyContent fd).bind fun bytes hb => Safe.pure ?_
    intro bytes' h
    cases h
    exact hb

theorem safe_verify : ∀ observations : List (Str × Option Bytes),
    Safe policyCodes (fun _ => True) (verify os deadline observations)
  | [] => Safe.pure trivial
  | (path, captured) :: rest =>
      (safe_policyBytes path).bind fun _ _ => Safe.ite (fun _ => safe_verify rest) fun _ =>
        Safe.fail (by decide)

end Files

/-! ## §4 — `enter`. -/

section Enter

variable {engine : Engine} {os : Os σ φ} {deadline : Nat}

/-- The codes `enter` fails with. -/
def enterCodes : List Code := [.deadline, .readFailed, .policyChanged, .entryLimit]

/-- The directory and the name of an entry that a stream yielded. -/
def Event.named : Event φ → Option (Str × DirName)
  | .entry dir (.name n) => some (dir, n)
  | _ => none

/-- The log continues `before`, by no entry of a stream. -/
def Extended (before : List (Event φ)) (w : World σ φ) : Prop :=
  ∃ added, w.log = before ++ added ∧ ∀ e ∈ added, e.named = none

namespace Extended

variable {before : List (Event φ)} {w w' : World σ φ}

theorem refl (w : World σ φ) : Extended w.log w := ⟨[], (List.append_nil _).symm, by simp⟩

theorem trans (h : Extended before w) (h' : Extended w.log w') : Extended before w' := by
  obtain ⟨added, hw, hadded⟩ := h
  obtain ⟨added', hw', hadded'⟩ := h'
  refine ⟨added ++ added', by rw [hw', hw, List.append_assoc], fun e he => ?_⟩
  rcases List.mem_append.1 he with he | he
  · exact hadded e he
  · exact hadded' e he

theorem le (h : Extended before w) : before <+: w.log := by
  obtain ⟨added, hw, -⟩ := h
  rw [hw]
  exact List.prefix_append before added

theorem note {e : Event φ} (h : e.named = none) (w : World σ φ) : Extended w.log (w.note e) :=
  ⟨[e], rfl, fun x hx => by rw [List.mem_singleton.1 hx]; exact h⟩

end Extended

theorem Grown.extended {before : List (Event φ)} {w : World σ φ} (h : Grown before w) :
    Extended before w := by
  obtain ⟨calls, hw, hcalls⟩ := h
  refine ⟨calls, hw, fun e he => ?_⟩
  have hcall := hcalls e he
  cases e
  case entry => exact hcall.elim
  all_goals rfl

/-- The log continues `before`, and the request's part of the scope is `filter`. -/
def Grows (before : List (Event φ)) (filter : Filter) (e : Entering σ φ) : Prop :=
  Extended before e.world ∧ e.scope.toFilter = filter

/-- `Safe` for what also loads rules: the request's part of the scope stays. -/
def EnterSafe (m : Enter σ φ α) : Prop :=
  ∀ before filter, Triple (Grows before filter) m (fun _ => Grows before filter)
    fun code e => Grows before filter e ∧ code ∈ enterCodes

namespace EnterSafe

theorem pure (a : α) : EnterSafe (pure a : Enter σ φ α) := fun _ _ => Triple.pure fun _ h => h

theorem fail {code : Code} (h : code ∈ enterCodes) : EnterSafe (.fail code : Enter σ φ α) :=
  fun _ _ => Triple.fail fun _ he => ⟨he, h⟩

theorem bind {m : Enter σ φ α} {f : α → Enter σ φ β} (hm : EnterSafe m) (hf : ∀ a, EnterSafe (f a)) :
    EnterSafe (m >>= f) := fun before filter =>
  Triple.bind (hm before filter) fun a => hf a before filter

theorem modify {f : Entering σ φ → Entering σ φ}
    (h : ∀ e, Extended e.world.log (f e).world ∧ (f e).scope.toFilter = e.scope.toFilter) :
    EnterSafe (.modify f) := fun _ _ =>
  Triple.modify fun e he => ⟨he.1.trans (h e).1, (h e).2.trans he.2⟩

theorem get_bind {f : Entering σ φ → Enter σ φ β} (hf : ∀ e, EnterSafe (f e)) :
    EnterSafe (.get >>= f) := fun before filter =>
  Triple.get_bind fun e he => Triple.con_pre (fun _ h => h ▸ he) (hf e before filter)

theorem ite {c : Prop} [Decidable c] {m m' : Enter σ φ α} (ht : EnterSafe m) (hf : EnterSafe m') :
    EnterSafe (if c then m else m') := fun before filter =>
  Triple.ite (fun _ => ht before filter) fun _ => hf before filter

theorem io {Q : α → Prop} {m : Io σ φ α} (h : Safe policyCodes Q m) : EnterSafe (Enter.io m) :=
  fun before filter e he => by
    refine Triple.onPart (h e.world.log) (P := (· = e)) ?_ ?_ ?_ e rfl
    · rintro _ rfl
      exact Grown.refl _
    · rintro _ _ w rfl hw
      exact ⟨he.1.trans hw.1.extended, he.2⟩
    · rintro _ code w rfl hw
      exact ⟨⟨he.1.trans hw.1.extended, he.2⟩, List.mem_append_left [Code.entryLimit] hw.2⟩

end EnterSafe

theorem safe_addLines : ∀ (lines : List Str) (builder : Gitignore),
    EnterSafe (addLines engine os deadline builder lines : Enter σ φ Gitignore)
  | [], _ => EnterSafe.pure _
  | line :: lines, builder => by
      refine (EnterSafe.io (safe_expired (by decide))).bind fun _ => EnterSafe.bind (EnterSafe.modify ?_)
        fun _ => EnterSafe.get_bind fun s => ?_
      · exact fun e => ⟨Extended.refl e.world, rfl⟩
      · refine EnterSafe.ite (EnterSafe.fail (by decide)) ?_
        exact EnterSafe.ite (safe_addLines lines _) (EnterSafe.fail (by decide))

theorem safe_addFound (builder : Gitignore) : ∀ bytes : Option Bytes,
    EnterSafe (addFound engine os deadline builder bytes : Enter σ φ Gitignore)
  | none => EnterSafe.pure _
  | some bytes => by
      refine EnterSafe.bind (EnterSafe.modify ?_) fun _ => EnterSafe.get_bind fun s => ?_
      · exact fun e => ⟨Extended.refl e.world, rfl⟩
      · refine EnterSafe.ite (EnterSafe.fail (by decide)) ?_
        split
        · exact EnterSafe.fail (by decide)
        · exact safe_addLines _ _

theorem safe_load (dir name : Str) :
    EnterSafe (load engine os deadline dir name : Enter σ φ Gitignore) := by
  refine (EnterSafe.io (safe_policyBytes _)).bind fun bytes => EnterSafe.bind (EnterSafe.modify ?_)
    fun _ => (safe_addFound _ bytes).bind fun builder => EnterSafe.bind (EnterSafe.modify ?_) fun _ => ?_
  · exact fun e => ⟨Extended.note rfl e.world, rfl⟩
  · exact fun e => ⟨Extended.refl e.world, rfl⟩
  · exact EnterSafe.ite (EnterSafe.pure _) (EnterSafe.fail (by decide))

/-- `enter` adds to the log no entry, keeps the request's part of the scope and fails with one of its codes. -/
theorem safe_enter (dir : Str) : EnterSafe (enter engine os deadline dir : Enter σ φ Unit) := by
  refine EnterSafe.get_bind fun s => EnterSafe.ite ?_ (EnterSafe.pure _)
  refine EnterSafe.get_bind fun s => EnterSafe.ite (EnterSafe.fail (by decide)) ?_
  refine (safe_load dir GITIGNORE).bind fun g => (safe_load dir IGNORE).bind fun i => ?_
  exact EnterSafe.modify fun e => ⟨Extended.refl e.world, rfl⟩

end Enter

end JevGrep.Worker
