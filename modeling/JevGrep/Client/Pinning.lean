/-
# `JevGrep.Client.Pinning` — a worker created with a root identity writes to no other root.

`Pinned identity` ties the expected identity to the trace: a child greets once, only a child that
greeted with the identity is ever written to, and a child that greeted with another one has been killed
or had exited. Every entry into the worker keeps it.
-/
import JevGrep.Client.CallSafety

namespace JevGrep.Client

open JevGrep.Lib JevGrep.Lib.Schema JevGrep.Lib.Transition
open JevGrep.Contracts (JsString)
open JevGrep.Worker (Bytes FRAME_CAP)

/-! ## §1 — the pinning. -/

/-- No longer running: killed by the worker, or exited by itself. -/
def Gone (trace : List Entry) (c : ChildId) : Prop :=
  Entry.killed c ∈ trace ∨ Entry.exited c ∈ trace

/-- **The invariant of a pinned worker**: whoever is ready has said the identity that is asked for. -/
structure Pinned (identity : JsString) (m : Machine) : Prop where
  root : m.worker.rootIdentity = some identity
  ready : ∀ c, m.worker.child = some c → m.worker.ready = true → Entry.greeted c identity ∈ m.trace
  waiting : ∀ c, m.worker.child = some c → m.worker.ready = false →
    ∀ i, Entry.greeted c i ∉ m.trace
  single : ∀ c i j, Entry.greeted c i ∈ m.trace → Entry.greeted c j ∈ m.trace → i = j
  wrote : ∀ c k f, Entry.wrote c k f ∈ m.trace → Entry.greeted c identity ∈ m.trace
  foreign : ∀ c i, Entry.greeted c i ∈ m.trace → i ≠ identity → Gone m.trace c

theorem pinned_create (identity : JsString) : Pinned identity (Machine.create (some identity)) := by
  constructor <;> simp [Machine.create]

/-! ## §2 — every entry keeps it. -/

section Frame

variable {identity : JsString} {m m' : Machine}

/-- An entry that is neither a greeting nor a frame. -/
def Entry.silent : Entry → Bool
  | .greeted .. | .wrote .. => false
  | _ => true

theorem gone_append {added trace : List Entry} {c : ChildId} (h : Gone trace c) :
    Gone (added ++ trace) c :=
  h.imp (List.mem_append_right _) (List.mem_append_right _)

theorem gone_cons {e : Entry} {trace : List Entry} {c : ChildId} (h : Gone trace c) :
    Gone (e :: trace) c :=
  h.imp (List.mem_cons_of_mem _) (List.mem_cons_of_mem _)

/-- A step without greeting and frame keeps the pinning, as long as the child and its readiness stay,
or the child is dropped, or a child that never greeted takes its place. -/
theorem Pinned.frame (h : Pinned identity m) (added : List Entry)
    (hid : m'.worker.rootIdentity = m.worker.rootIdentity) (ht : m'.trace = added ++ m.trace)
    (hadded : ∀ e ∈ added, e.silent = true)
    (hready : m'.worker.ready = true → m.worker.ready = true ∧ m'.worker.child = m.worker.child)
    (hwaiting : ∀ c, m'.worker.child = some c → m'.worker.ready = false →
      ∀ i, Entry.greeted c i ∉ m.trace) : Pinned identity m' := by
  have hgreeted : ∀ {c i}, Entry.greeted c i ∈ m'.trace ↔ Entry.greeted c i ∈ m.trace := by
    intro c i
    rw [ht, List.mem_append]
    refine ⟨fun hm => hm.resolve_left fun ha => ?_, .inr⟩
    exact absurd (hadded _ ha) Bool.false_ne_true
  have hwrote : ∀ {c k f}, Entry.wrote c k f ∈ m'.trace → Entry.wrote c k f ∈ m.trace := by
    intro c k f
    rw [ht, List.mem_append]
    refine fun hm => hm.resolve_left fun ha => ?_
    exact absurd (hadded _ ha) Bool.false_ne_true
  exact {
    root := hid.trans h.root
    ready := fun c hc hr => by
      obtain ⟨hr', hc'⟩ := hready hr
      exact hgreeted.mpr (h.ready c (hc' ▸ hc) hr')
    waiting := fun c hc hr i hg => hwaiting c hc hr i (hgreeted.mp hg)
    single := fun c i j hi hj => h.single c i j (hgreeted.mp hi) (hgreeted.mp hj)
    wrote := fun c k f hw => hgreeted.mpr (h.wrote c k f (hwrote hw))
    foreign := fun c i hg hne => by
      rw [ht]
      exact gone_append (h.foreign c i (hgreeted.mp hg) hne) }

/-- The same child with the same readiness. -/
theorem Pinned.quiet (h : Pinned identity m) (added : List Entry)
    (hid : m'.worker.rootIdentity = m.worker.rootIdentity) (ht : m'.trace = added ++ m.trace)
    (hadded : ∀ e ∈ added, e.silent = true) (hr : m'.worker.ready = m.worker.ready)
    (hc : m'.worker.child = m.worker.child) : Pinned identity m' :=
  h.frame added hid ht hadded (fun h' => ⟨hr ▸ h', hc⟩) fun c hc' hr' =>
    h.waiting c (hc ▸ hc') (hr ▸ hr')

theorem silent_fail {added : List Entry} {code : WorkerErrorCode}
    (h : ∀ e ∈ added, (∃ c, e = .killed c) ∨ ∃ k, e = .rejected k code) :
    ∀ e ∈ added, e.silent = true := by
  intro e he
  rcases h e he with ⟨c, rfl⟩ | ⟨k, rfl⟩ <;> rfl

/-- `fail` drops the child and sends nothing. -/
theorem Pinned.fail (h : Pinned identity m) (code : WorkerErrorCode) :
    Pinned identity (m.fail code) := by
  obtain ⟨added, ht, hadded⟩ := m.fail_trace code
  refine h.frame added ?_ ht (silent_fail hadded) ?_ ?_ <;> simp [Machine.fail_worker]

/-- `fail` leaves no current child running. -/
theorem gone_fail {c : ChildId} (hc : m.worker.child = some c) (code : WorkerErrorCode) :
    Gone (m.fail code).trace c := by
  have hdrop : Gone m.dropChild.trace c := by
    rw [Machine.dropChild, hc]
    simp only [Machine.retire]
    split
    · rename_i hex
      exact .inr (Machine.hasExited_iff.mp hex)
    · exact .inl List.mem_cons_self
  have hopen : Gone (m.dropChild.rejectOpening code).trace c := by
    rw [Machine.rejectOpening]
    split
    · exact hdrop
    · exact gone_cons hdrop
  rw [Machine.fail, Machine.rejectPending]
  split
  · exact hopen
  · exact gone_cons hopen

/-- A fresh child has not greeted. -/
theorem Pinned.start (h : Pinned identity m) (hfresh : ∀ i, Entry.greeted m.children i ∉ m.trace) :
    Pinned identity m.start := by
  refine h.frame [.spawned m.children] rfl rfl ?_ nofun fun c hc _ => ?_
  · simp [Entry.silent]
  · obtain rfl : m.children = c := Option.some.inj hc
    exact hfresh

theorem Core.greeted_fresh (h : Core m) (i : JsString) : Entry.greeted m.children i ∉ m.trace :=
  fun hg => Nat.lt_irrefl _ (h.children _ hg _ rfl)

/-- A frame goes to the child that greeted with the identity. -/
theorem Pinned.send (h : Pinned identity m) (rt : Runtime) (hr : m.worker.ready = true) :
    Pinned identity (m.send rt) := by
  rw [Machine.send]
  split
  · rename_i p c _ hc
    have htick : Pinned identity m.tick := { h with }
    simp only
    split
    · exact htick.fail _
    · exact {
        root := h.root
        ready := fun d hd hr' => List.mem_cons_of_mem _ (h.ready d hd hr')
        waiting := fun d hd hr' => by
          rw [Machine.record_worker, Machine.tick_worker, hr] at hr'
          cases hr'
        single := by simpa using h.single
        wrote := fun d k f hw => by
          refine List.mem_cons_of_mem _ ?_
          rcases List.mem_cons.mp hw with hw | hw
          · obtain rfl : d = c := (Entry.wrote.inj hw).1
            exact h.ready d hc hr
          · exact h.wrote d k f hw
        foreign := fun d i hg hne => by
          refine gone_cons (h.foreign d i ?_ hne)
          simpa using hg }
  · exact h

/-- Settling an opening changes neither the child nor its readiness. -/
theorem Pinned.resolveOpening (h : Pinned identity m) : Pinned identity m.resolveOpening := by
  rw [Machine.resolveOpening]
  split
  · exact h
  · rename_i k _
    exact h.quiet [.opened k] rfl rfl (by simp [Entry.silent]) rfl rfl

/-- A hello with the identity makes the child ready; one with another identity drops it. -/
theorem Pinned.greet {rt : Runtime} {c : ChildId} {message : Json} (h : Pinned identity m)
    (hc : m.worker.child = some c) (hr : m.worker.ready = false) :
    Pinned identity (m.greet rt c message).1 := by
  have hnone := h.waiting c hc hr
  rw [Machine.greet]
  split
  · exact h.fail _
  · split
    · exact h.fail _
    · rename_i hello _ _
      set seen := hello.rootDev ++ units ":" ++ hello.rootIno
      -- a child that waits for its hello has not greeted before
      have hsingle : ∀ d i j, Entry.greeted d i ∈ (m.record (.greeted c seen)).trace →
          Entry.greeted d j ∈ (m.record (.greeted c seen)).trace → i = j := by
        intro d i j hi hj
        rcases List.mem_cons.mp hi with hi' | hi' <;> rcases List.mem_cons.mp hj with hj' | hj'
        · exact (Entry.greeted.inj (hi'.trans hj'.symm)).2
        · obtain ⟨rfl, rfl⟩ := Entry.greeted.inj hi'
          exact absurd hj' (hnone j)
        · obtain ⟨rfl, rfl⟩ := Entry.greeted.inj hj'
          exact absurd hi' (hnone i)
        · exact h.single d i j hi' hj'
      have hwrote : ∀ d k f, Entry.wrote d k f ∈ (m.record (.greeted c seen)).trace →
          Entry.greeted d identity ∈ (m.record (.greeted c seen)).trace := by
        intro d k f hw
        rcases List.mem_cons.mp hw with hw | hw
        · cases hw
        · exact List.mem_cons_of_mem _ (h.wrote d k f hw)
      simp only
      split
      · -- another root: the greeting stays without a frame, and `fail` drops the child
        obtain ⟨added, ht, hadded⟩ := (m.record (.greeted c seen)).fail_trace .rootChanged
        have hgone : Gone ((m.record (.greeted c seen)).fail .rootChanged).trace c :=
          @gone_fail (m.record (.greeted c seen)) c hc .rootChanged
        have hsilent := silent_fail hadded
        have hold : ∀ {e : Entry}, e.silent = false →
            e ∈ ((m.record (.greeted c seen)).fail .rootChanged).trace →
            e ∈ (m.record (.greeted c seen)).trace := by
          intro e he hm
          rw [ht] at hm
          refine (List.mem_append.mp hm).resolve_left fun ha => ?_
          rw [hsilent e ha] at he
          cases he
        exact {
          root := by rw [Machine.fail_worker]; exact h.root
          ready := by simp [Machine.fail_worker]
          waiting := by simp [Machine.fail_worker]
          single := fun d i j hi hj => hsingle d i j (hold rfl hi) (hold rfl hj)
          wrote := fun d k f hw => by
            rw [ht]
            exact List.mem_append_right _ (hwrote d k f (hold rfl hw))
          foreign := fun d i hg hne => by
            rcases List.mem_cons.mp (hold rfl hg) with hg | hg
            · rw [(Entry.greeted.inj hg).1]
              exact hgone
            · rw [ht]
              exact gone_append (gone_cons (h.foreign d i hg hne)) }
      · -- the root is pinned, so that the hello names it
        rename_i hsame
        have hseen : seen = identity := by
          rw [Machine.record_worker, h.root, not_and, not_not] at hsame
          exact (Option.some.inj (hsame (Option.some_ne_none _))).symm
        have hadopt : Pinned identity ((m.record (.greeted c seen)).adopt seen) := {
          root := by rw [Machine.adopt_worker, hseen]
          ready := fun d hd _ => by
            obtain rfl : c = d := Option.some.inj (hc.symm.trans hd)
            rw [← hseen]
            exact List.mem_cons_self
          waiting := fun _ _ hr => by cases hr
          single := hsingle
          wrote := hwrote
          foreign := fun d i hg hne => by
            rcases List.mem_cons.mp hg with hg | hg
            · exact absurd ((Entry.greeted.inj hg).2.trans hseen) hne
            · exact gone_cons (h.foreign d i hg hne) }
        refine hadopt.resolveOpening.send rt ?_
        rw [Machine.resolveOpening]
        split <;> rfl

theorem Pinned.respond {rt : Runtime} {message : Json} {size : Nat} (h : Pinned identity m) :
    Pinned identity (m.respond rt message size).1 := by
  rw [Machine.respond]
  split
  · exact h.fail _
  · rename_i p _
    split
    · exact h.fail _
    · rename_i response _
      have htick : Pinned identity m.tick := { h with }
      split
      · exact htick.fail _
      · exact h.quiet [.resolved p.call response] rfl rfl (by simp [Entry.silent]) rfl rfl

theorem Pinned.deliver {rt : Runtime} {c : ChildId} {message : Json} {size : Nat}
    (h : Pinned identity m) (hc : m.worker.child = some c) :
    Pinned identity (m.deliver rt c message size).1 := by
  have hd : Pinned identity (m.record (.delivered c message size)) :=
    h.quiet [.delivered c message size] rfl rfl (by simp [Entry.silent]) rfl rfl
  simp only [Machine.deliver]
  split
  · exact hd.respond
  · rename_i hr
    exact hd.greet hc (Bool.eq_false_iff.mpr hr)

theorem Pinned.drain (rt : Runtime) (c : ChildId) (fuel : Nat) : ∀ m : Machine, Pinned identity m →
    m.worker.child = some c ∨ m.worker.input = [] → Pinned identity (m.drain rt c fuel) := by
  induction fuel with
  | zero => exact fun m h _ => h
  | succ fuel ih =>
      intro m h hc
      rw [Machine.drain]
      split
      · exact h
      · rename_i hlen
        have hcur : m.worker.child = some c := by
          refine hc.resolve_right fun hnil => hlen ?_
          rw [hnil]
          decide
        simp only
        split
        · exact h.fail _
        · split
          · exact h
          · set m' : Machine := { m with
              worker := { m.worker with input := m.worker.input.drop (readBe32 m.worker.input + 4) } }
              with hm'
            have h' : Pinned identity m' := { h with }
            split
            · exact h'.fail _
            · split
              · rename_i hcont
                exact ih _ (h'.deliver hcur) (deliver_current hcur hcont)
              · exact h'.deliver hcur

theorem Pinned.accept {request : WorkerRequest} {signal : Option SignalId} (h : Pinned identity m)
    (hcore : Core m) (rt : Runtime) : Pinned identity (m.accept rt request signal) := by
  rw [Machine.accept_eq]
  set m' := m.admitted rt request signal
  have h' : Pinned identity m' :=
    h.quiet [.accepted m.calls request] rfl rfl (by simp [Entry.silent]) rfl rfl
  split_ifs with _ _ hr
  · exact h'.fail _
  · refine h'.start fun i hg => ?_
    rcases List.mem_cons.mp hg with hg | hg
    · cases hg
    · exact hcore.greeted_fresh i hg
  · exact h'.send rt hr
  · exact h'

theorem Pinned.openRoot (h : Pinned identity m) (hcore : Core m) :
    Pinned identity m.openRoot.2 := by
  rw [Machine.openRoot]
  split_ifs
  · exact h
  · exact h
  · exact h
  · exact h
  · set m' : Machine := { m with
      worker := { m.worker with opening := some m.calls }
      calls := m.calls + 1
      timers := m.calls :: m.timers
      trace := .opening m.calls :: m.trace } with hm'
    have h' : Pinned identity m' :=
      h.quiet [.opening m.calls] rfl rfl (by simp [Entry.silent]) rfl rfl
    refine h'.start fun i hg => ?_
    rcases List.mem_cons.mp hg with hg | hg
    · cases hg
    · exact hcore.greeted_fresh i hg

theorem Pinned.onAbort (h : Pinned identity m) (signal : SignalId) :
    Pinned identity (m.onAbort signal) := by
  rw [Machine.onAbort]
  split
  · exact h
  · generalize m.listeners.filter (·.2 == signal) = snapshot
    have h' : Pinned identity { m with aborted := signal :: m.aborted } := { h with }
    generalize { m with aborted := signal :: m.aborted } = m' at h'
    induction snapshot generalizing m' with
    | nil => exact h'
    | cons l ls ih =>
        rw [List.foldl_cons]
        refine ih _ ?_
        split
        · have hl : Pinned identity { m' with listeners := m'.listeners.filter (· != l) } :=
            { h' with }
          exact hl.fail _
        · exact h'

theorem Pinned.onClose (h : Pinned identity m) (c : ChildId) : Pinned identity (m.onClose c) := by
  rw [Machine.onClose]
  split
  · have hrec : Pinned identity (m.record (.closed c)) :=
      h.quiet [.closed c] rfl rfl (by simp [Entry.silent]) rfl rfl
    simp only
    set m₁ : Machine := if (m.record (.closed c)).worker.child = some c then
      (m.record (.closed c)).fail .workerExit else m.record (.closed c) with hm₁
    have h₁ : Pinned identity m₁ := by
      rw [hm₁]
      split
      · exact hrec.fail _
      · exact hrec
    split
    · exact { h₁ with }
    · exact h₁
  · exact h

/-- **The step lemma.** Every entry into the worker keeps the pinning. -/
theorem Pinned.step (h : Pinned identity m) (hinv : Inv m) (rt : Runtime) (e : Event) :
    Pinned identity (m.step rt e) := by
  cases e with
  | search input signal =>
      show Pinned identity (m.search rt input signal).2
      rw [Machine.search]
      split_ifs
      · exact h
      · exact h
      · exact h
      · exact h
      · split
        · exact h
        · exact h.accept hinv.toCore rt
  | openRoot => exact h.openRoot hinv.toCore
  | close =>
      have hd : Pinned identity
          (({ m with worker := { m.worker with disposed := true } } : Machine).record .disposed) :=
        h.quiet [.disposed] rfl rfl (by simp [Entry.silent]) rfl rfl
      exact hd.fail _
  | abort signal => exact h.onAbort signal
  | timer call =>
      show Pinned identity (m.onTimer call)
      rw [Machine.onTimer]
      split_ifs
      · have ht : Pinned identity { m with timers := m.timers.filter (· != call) } := { h with }
        exact ht.fail _
      · exact h
  | data c chunk =>
      show Pinned identity (m.onData rt c chunk)
      rw [Machine.onData]
      split_ifs with hc
      · exact h
      · exact h.fail _
      · exact Pinned.drain rt c _ _ { h with } (.inl (not_not.mp hc))
  | childError c | stdinError c =>
      show Pinned identity (m.onError c)
      rw [Machine.onError]
      split_ifs
      · exact h.fail _
      · exact h
  | childExit c =>
      show Pinned identity (m.onExit c)
      rw [Machine.onExit]
      split_ifs
      · exact h.quiet [.exited c] rfl rfl (by simp [Entry.silent]) rfl rfl
      · exact h
  | childClose c => exact h.onClose c

end Frame

/-- **The run lemma.** A worker created with an identity stays pinned to it. -/
theorem pinned_after (rt : Runtime) (identity : JsString) (events : List Event) :
    Pinned identity (Machine.after rt (some identity) events) :=
  run_stable (fun e _ h => inv_step rt e h) (fun e _ hinv h => h.step hinv rt e)
    (inv_create _) (pinned_create identity) events

/-- A frame is written behind the hello of a child on the pinned root. -/
theorem Pinned.wrote_behind {identity : JsString} {m : Machine} (h : Pinned identity m)
    (hinv : Inv m) {later earlier : List Entry} {c : ChildId} {call : CallId} {frame : Bytes}
    (ht : m.trace = later ++ .wrote c call frame :: earlier) :
    Entry.greeted c identity ∈ earlier := by
  have hj := hinv.justified
  rw [ht] at hj
  obtain ⟨-, -, ⟨i, hg⟩, -⟩ := hj.entry
  have hmem : Entry.wrote c call frame ∈ m.trace := by
    rw [ht]
    exact List.mem_append_right _ List.mem_cons_self
  have hgi : Entry.greeted c i ∈ m.trace := by
    rw [ht]
    exact List.mem_append_right _ (List.mem_cons_of_mem _ hg)
  obtain rfl : i = identity := h.single c i identity hgi (h.wrote c call frame hmem)
  exact hg

/-- A child on another root gets no frame. -/
theorem Pinned.foreign_unwritten {identity i : JsString} {m : Machine} (h : Pinned identity m)
    {c : ChildId} (hg : Entry.greeted c i ∈ m.trace) (hne : i ≠ identity) (call : CallId)
    (frame : Bytes) : Entry.wrote c call frame ∉ m.trace :=
  fun hw => hne (h.single c i identity hg (h.wrote c call frame hw))

/-! ## §3 — traces only grow, and only `close` closes. -/

section Growth

variable {m m' m'' : Machine} {rt : Runtime}

/-- Everything recorded stays recorded. -/
def Grows (m m' : Machine) : Prop := m.trace <:+ m'.trace

theorem Grows.refl (m : Machine) : Grows m m := List.suffix_refl _

theorem Grows.trans (h : Grows m m') (h' : Grows m' m'') : Grows m m'' := List.IsSuffix.trans h h'

/-- Everything recorded stays recorded, and the worker is closed if it was. -/
def Keeps (m m' : Machine) : Prop := Grows m m' ∧ m'.worker.disposed = m.worker.disposed

theorem Keeps.refl (m : Machine) : Keeps m m := ⟨Grows.refl m, rfl⟩

theorem Keeps.record (h : Keeps m m') (e : Entry) : Keeps m (m'.record e) :=
  ⟨h.1.trans (List.suffix_cons _ _), h.2⟩

theorem Keeps.fail (h : Keeps m m') (code : WorkerErrorCode) : Keeps m (m'.fail code) := by
  obtain ⟨added, ht, -⟩ := m'.fail_trace code
  have hdisposed : (m'.fail code).worker.disposed = m'.worker.disposed := by
    rw [Machine.fail_worker]
  exact ⟨h.1.trans ⟨added, ht.symm⟩, hdisposed.trans h.2⟩

theorem Keeps.start (h : Keeps m m') : Keeps m m'.start :=
  ⟨h.1.trans (List.suffix_cons _ _), h.2⟩

theorem Keeps.send (h : Keeps m m') : Keeps m (m'.send rt) := by
  unfold Machine.send
  split
  · dsimp only
    split
    · exact @Keeps.fail m m'.tick h .deadline
    · exact @Keeps.record m m'.tick h _
  · exact h

theorem Keeps.resolveOpening (h : Keeps m m') : Keeps m m'.resolveOpening := by
  unfold Machine.resolveOpening
  split
  · exact h
  · rename_i call _
    exact @Keeps.record m (m'.dropOpening call) h _

theorem Keeps.greet {c : ChildId} {message : Json} (h : Keeps m m') :
    Keeps m (m'.greet rt c message).1 := by
  unfold Machine.greet
  split
  · exact h.fail _
  · split
    · exact h.fail _
    · dsimp only
      split
      · exact (h.record _).fail _
      · apply Keeps.send
        apply Keeps.resolveOpening
        exact h.record _

theorem Keeps.respond {message : Json} {size : Nat} (h : Keeps m m') :
    Keeps m (m'.respond rt message size).1 := by
  unfold Machine.respond
  split
  · exact h.fail _
  · rename_i p _
    split
    · exact h.fail _
    · split
      · exact @Keeps.fail m m'.tick h .deadline
      · exact @Keeps.record m (m'.tick.dropPending p.call) h _

theorem Keeps.deliver {c : ChildId} {message : Json} {size : Nat} (h : Keeps m m') :
    Keeps m (m'.deliver rt c message size).1 := by
  unfold Machine.deliver
  dsimp only
  split
  · exact (h.record _).respond
  · exact (h.record _).greet

theorem Keeps.drain {c : ChildId} (fuel : Nat) : ∀ {m' : Machine}, Keeps m m' →
    Keeps m (m'.drain rt c fuel) := by
  induction fuel with
  | zero => exact fun h => h
  | succ fuel ih =>
      intro m' h
      unfold Machine.drain
      dsimp only
      split
      · exact h
      · split
        · exact h.fail _
        · split
          · exact h
          · set taken : Machine := { m' with
              worker := { m'.worker with
                input := m'.worker.input.drop (readBe32 m'.worker.input + 4) } }
            have htaken : Keeps m taken := h
            split
            · exact htaken.fail _
            · split
              · exact ih htaken.deliver
              · exact htaken.deliver

theorem Keeps.accept (request : WorkerRequest) (signal : Option SignalId) :
    Keeps m (m.accept rt request signal) := by
  rw [Machine.accept_eq]
  set m₁ := m.admitted rt request signal
  have h : Keeps m m₁ := ⟨List.suffix_cons _ _, rfl⟩
  split
  · exact h.fail _
  · split
    · exact h.start
    · split
      · exact h.send
      · exact h

theorem Keeps.onAbort (signal : SignalId) : Keeps m (m.onAbort signal) := by
  unfold Machine.onAbort
  split
  · exact Keeps.refl m
  · generalize m.listeners.filter (·.2 == signal) = snapshot
    have h : Keeps m { m with aborted := signal :: m.aborted } := Keeps.refl m
    generalize { m with aborted := signal :: m.aborted } = m' at h
    induction snapshot generalizing m' with
    | nil => exact h
    | cons l ls ih =>
        rw [List.foldl_cons]
        apply ih
        split
        · exact @Keeps.fail m { m' with listeners := m'.listeners.filter (· != l) } h .cancelled
        · exact h

theorem Keeps.onClose (c : ChildId) : Keeps m (m.onClose c) := by
  unfold Machine.onClose
  split
  · have h : Keeps m (m.record (.closed c)) := (Keeps.refl m).record _
    dsimp only
    set m₁ : Machine := if (m.record (.closed c)).worker.child = some c then
      (m.record (.closed c)).fail .workerExit else m.record (.closed c) with hm₁
    have h₁ : Keeps m m₁ := by
      rw [hm₁]
      split
      · exact h.fail _
      · exact h
    split
    · exact h₁
    · exact h₁
  · exact Keeps.refl m

/-- What every entry into the worker but `close` keeps. -/
theorem Keeps.step (rt : Runtime) (e : Event) (m : Machine) (hclose : e ≠ .close) :
    Keeps m (m.step rt e) := by
  have h : Keeps m m := Keeps.refl m
  cases e with
  | search input signal =>
      show Keeps m (m.search rt input signal).2
      unfold Machine.search
      split_ifs
      · exact h
      · exact h
      · exact h
      · exact h
      · split
        · exact h
        · exact Keeps.accept _ _
  | openRoot =>
      show Keeps m m.openRoot.2
      unfold Machine.openRoot
      split_ifs
      · exact h
      · exact h
      · exact h
      · exact h
      · dsimp only
        apply Keeps.start
        exact ⟨List.suffix_cons _ _, rfl⟩
  | close => exact absurd rfl hclose
  | abort signal => exact Keeps.onAbort signal
  | timer call =>
      show Keeps m (m.onTimer call)
      unfold Machine.onTimer
      split_ifs
      · exact @Keeps.fail m { m with timers := m.timers.filter (· != call) } h .deadline
      · exact h
  | data c chunk =>
      show Keeps m (m.onData rt c chunk)
      unfold Machine.onData
      split_ifs
      · exact h
      · exact h.fail _
      · exact Keeps.drain _ h
  | childError c | stdinError c =>
      show Keeps m (m.onError c)
      unfold Machine.onError
      split_ifs
      · exact h.fail _
      · exact h
  | childExit c =>
      show Keeps m (m.onExit c)
      unfold Machine.onExit
      split_ifs
      · exact h.record _
      · exact h
  | childClose c => exact Keeps.onClose c

/-- `close` closes the worker. -/
theorem Machine.close_disposed (m : Machine) : m.close.worker.disposed = true := by
  rw [Machine.close, Machine.fail_worker]
  rfl

/-- No entry into the worker takes anything off the trace. -/
theorem Grows.step (rt : Runtime) (e : Event) (m : Machine) : Grows m (m.step rt e) := by
  by_cases he : e = .close
  · subst he
    have hclosed : Keeps { m with worker := { m.worker with disposed := true } }
        (({ m with worker := { m.worker with disposed := true } } : Machine).record .disposed) :=
      (Keeps.refl _).record .disposed
    exact (hclosed.fail .workerClosed).1
  · exact (Keeps.step rt e m he).1

/-- A closed worker stays closed. -/
theorem Machine.step_disposed {rt : Runtime} {e : Event} {m : Machine}
    (h : m.worker.disposed = true) : (m.step rt e).worker.disposed = true := by
  by_cases he : e = .close
  · subst he
    exact m.close_disposed
  · exact (Keeps.step rt e m he).2.trans h

end Growth

end JevGrep.Client
