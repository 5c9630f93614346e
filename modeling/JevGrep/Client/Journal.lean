/-
# `JevGrep.Client.Journal` — what a step of the client adds to its trace.

Every entry into the worker object does one of three things to the searches of its trace: it takes on a new
search, it writes the frame of the search in flight, or it is calm and at most drops the search. From the
three follow the bookkeeping that ties a frame to the search it carries (`Known`), and that the frame written
last to a child that is ready is the one of the search in flight (`Latest`).

* §1 calm steps; §2 the three steps; §3 the events; §4 the bookkeeping.
-/
import JevGrep.Client.Framing

namespace JevGrep.Client

open JevGrep.Lib JevGrep.Lib.Schema JevGrep.Lib.Transition
open JevGrep.Contracts (JsString)
open JevGrep.Worker (Bytes FRAME_CAP)

/-! ## §1 — calm steps. -/

/-- Neither a search nor its frame. -/
def Entry.Unsent : Entry → Prop
  | .accepted .. | .wrote .. => False
  | _ => True

/-- What only a chunk can add: the identity of a root, an answer, a rejection for a breach of the protocol. -/
def Entry.Told : Entry → Prop
  | .greeted .. | .resolved .. => True
  | .rejected _ code => code = .workerProtocol
  | _ => False

/-- None of them. -/
def Entry.Still (e : Entry) : Prop := e.Unsent ∧ ¬ e.Told

theorem Entry.Told.unsent {e : Entry} (h : e.Told) : e.Unsent := by
  cases e with
  | greeted c identity | resolved call response | rejected call code => trivial
  | _ => exact h.elim

/-- No search and no frame is added, and a search in flight is dropped or stays in flight. -/
structure Adds (m m' : Machine) : Prop where
  trace : ∃ added, m'.trace = added ++ m.trace ∧ ∀ e ∈ added, e.Unsent
  ticks : m.ticks ≤ m'.ticks
  sequence : m'.worker.sequence = m.worker.sequence
  pending : m'.worker.pending = none ∨ m'.worker.pending = m.worker.pending

/-- Only still entries are added, and a search that stays in flight stays with its child. -/
structure Calms (m m' : Machine) : Prop where
  trace : ∃ added, m'.trace = added ++ m.trace ∧ ∀ e ∈ added, e.Still
  ticks : m.ticks ≤ m'.ticks
  sequence : m'.worker.sequence = m.worker.sequence
  pending : m'.worker.pending = none ∨ m'.worker.pending = m.worker.pending ∧
    (m'.worker.ready = false ∨ m'.worker.child = m.worker.child ∧ m'.worker.ready = m.worker.ready)

theorem Calms.adds {m m' : Machine} (h : Calms m m') : Adds m m' where
  trace := by
    obtain ⟨added, htrace, hadded⟩ := h.trace
    exact ⟨added, htrace, fun e he => (hadded e he).1⟩
  ticks := h.ticks
  sequence := h.sequence
  pending := h.pending.imp_right And.left

namespace Calms

variable {m m' m'' : Machine}

theorem refl (m : Machine) : Calms m m :=
  ⟨⟨[], rfl, List.forall_mem_nil _⟩, Nat.le_refl _, rfl, .inr ⟨rfl, .inr ⟨rfl, rfl⟩⟩⟩

theorem trans (h : Calms m m') (h' : Calms m' m'') : Calms m m'' where
  trace := by
    obtain ⟨added, htrace, hadded⟩ := h.trace
    obtain ⟨later, htrace', hlater⟩ := h'.trace
    refine ⟨later ++ added, by rw [htrace', htrace, List.append_assoc], fun e he => ?_⟩
    rcases List.mem_append.1 he with he | he
    · exact hlater e he
    · exact hadded e he
  ticks := h.ticks.trans h'.ticks
  sequence := h'.sequence.trans h.sequence
  pending := by
    rcases h'.pending with hnone | ⟨hsame', hchild'⟩
    · exact .inl hnone
    · rcases h.pending with hnone | ⟨hsame, hchild⟩
      · exact .inl (hsame'.trans hnone)
      · refine .inr ⟨hsame'.trans hsame, ?_⟩
        rcases hchild' with hready | ⟨hc', hr'⟩
        · exact .inl hready
        · rcases hchild with hready | ⟨hc, hr⟩
          · exact .inl (hr'.trans hready)
          · exact .inr ⟨hc'.trans hc, hr'.trans hr⟩

/-- A step that leaves the search, its child and the clock alone. -/
theorem same (added : List Entry) (htrace : m'.trace = added ++ m.trace) (hadded : ∀ e ∈ added, e.Still)
    (hworker : m'.worker.pending = m.worker.pending ∧ m'.worker.child = m.worker.child ∧
      m'.worker.ready = m.worker.ready ∧ m'.worker.sequence = m.worker.sequence)
    (hticks : m.ticks ≤ m'.ticks) : Calms m m' where
  trace := ⟨added, htrace, hadded⟩
  ticks := hticks
  sequence := hworker.2.2.2
  pending := .inr ⟨hworker.1, .inr ⟨hworker.2.1, hworker.2.2.1⟩⟩

/-- One calm entry is recorded. -/
theorem record (m : Machine) {e : Entry} (he : e.Still) : Calms m (m.record e) :=
  same [e] rfl (List.forall_mem_singleton.2 he) ⟨rfl, rfl, rfl, rfl⟩ (Nat.le_refl _)

theorem tick (m : Machine) : Calms m m.tick :=
  same [] rfl (List.forall_mem_nil _) ⟨rfl, rfl, rfl, rfl⟩ (Nat.le_succ _)

theorem ticks_fail (m : Machine) (code : WorkerErrorCode) : (m.fail code).ticks = m.ticks := by
  have hdrop : m.dropChild.ticks = m.ticks := by
    rw [Machine.dropChild]
    split
    · rfl
    · rw [Machine.retire]
      split <;> rfl
  have hopening : (m.dropChild.rejectOpening code).ticks = m.dropChild.ticks := by
    rw [Machine.rejectOpening]
    split <;> rfl
  have hpending : (m.fail code).ticks = (m.dropChild.rejectOpening code).ticks := by
    rw [Machine.fail, Machine.rejectPending]
    split <;> rfl
  exact hpending.trans (hopening.trans hdrop)

theorem fail (m : Machine) {code : WorkerErrorCode} (hcode : code ≠ .workerProtocol) :
    Calms m (m.fail code) where
  trace := by
    obtain ⟨added, htrace, hadded⟩ := m.fail_trace code
    refine ⟨added, htrace, fun e he => ?_⟩
    rcases hadded e he with ⟨c, rfl⟩ | ⟨k, rfl⟩
    · exact ⟨trivial, id⟩
    · exact ⟨trivial, hcode⟩
  ticks := Nat.le_of_eq (ticks_fail m code).symm
  sequence := by rw [Machine.fail_worker]
  pending := .inl (by rw [Machine.fail_worker])

theorem failing (h : Calms m m') {code : WorkerErrorCode} (hcode : code ≠ .workerProtocol) :
    Calms m (m'.fail code) :=
  h.trans (fail m' hcode)

theorem start (m : Machine) : Calms m m.start where
  trace := ⟨[.spawned m.children], rfl, List.forall_mem_singleton.2 ⟨trivial, id⟩⟩
  ticks := Nat.le_refl _
  sequence := rfl
  pending := .inr ⟨rfl, .inl rfl⟩

end Calms

/-! ## §2 — the three steps. -/

/-- The frame of the search in flight is written to the current child. -/
structure Writes (rt : Runtime) (m m' : Machine) (p : Pending) (c : ChildId) : Prop where
  pending : m.worker.pending = some p
  child : m.worker.child = some c
  remaining : 0 < remainingMs p (rt.clock m.ticks)
  after : m' = m.tick.record (.wrote c p.call (requestFrame p.request
    (remainingMs p (rt.clock m.ticks)).toNat))

/-- `send` writes, or is calm. -/
theorem send_writes (rt : Runtime) (m : Machine) :
    Calms m (m.send rt) ∨ ∃ p c, Writes rt m (m.send rt) p c := by
  rw [Machine.send]
  split
  · rename_i p c hp hc
    simp only
    split
    · exact .inl ((Calms.tick m).failing (by decide))
    · rename_i hpos
      exact .inr ⟨p, c, hp, hc, Int.not_le.1 hpos, rfl⟩
  · exact .inl (.refl m)

/-- A search has passed its checks: the state in front of the first thing that is done for it. -/
structure Admits (rt : Runtime) (m m' : Machine) (p : Pending) : Prop where
  input : ∃ input, acceptInput (requestId m'.worker.sequence) input = some p.request
  sequence : m'.worker.sequence = m.worker.sequence + 1
  idle : m.worker.pending = none
  pending : m'.worker.pending = some p
  startedAt : p.startedAt = rt.clock m.ticks
  ticks : m.ticks ≤ m'.ticks
  trace : m'.trace = .accepted p.call p.request :: m.trace
  /-- A child that is ready stays where it is. -/
  child : m'.worker.child = m.worker.child ∧ m'.worker.ready = m.worker.ready

/-- What an event that is not a chunk does. -/
inductive Moves (rt : Runtime) (m m' : Machine) : Prop
  | calm (h : Calms m m')
  /-- A new search is dropped at once, or waits for its child. -/
  | waits (m₁ : Machine) (p : Pending) (hadmits : Admits rt m m₁ p)
      (hpending : m'.worker.pending = none ∨ m'.worker.ready = false) (h : Calms m₁ m')
  /-- A new search is written. -/
  | writes (m₁ : Machine) (p : Pending) (c : ChildId) (hadmits : Admits rt m m₁ p)
      (h : Writes rt m₁ m' p c)

/-! ## §3 — the events. -/

section Events

variable {rt : Runtime} {m : Machine}

theorem moves_accept (request : WorkerRequest) (signal : Option SignalId)
    (hidle : m.worker.pending = none) {input : List (List UInt16 × Json)}
    (hinput : acceptInput (requestId (m.worker.sequence + 1)) input = some request) :
    Moves rt m (m.accept rt request signal) := by
  rw [Machine.accept_eq]
  set m₁ := m.admitted rt request signal
  have hadmits : Admits rt m m₁ { call := m.calls, request := request, startedAt := rt.clock m.ticks } :=
    ⟨⟨input, hinput⟩, rfl, hidle, rfl, rfl, Nat.le_succ _, rfl, rfl, rfl⟩
  split
  · refine .waits m₁ _ hadmits (.inl ?_) (Calms.fail m₁ (by decide))
    rw [Machine.fail_worker]
  · split
    · exact .waits m₁ _ hadmits (.inr rfl) (Calms.start m₁)
    · split
      · have hwhich : (m₁.send rt).worker.pending = none ∨
            ∃ c, Writes rt m₁ (m₁.send rt) { call := m.calls, request := request, startedAt := rt.clock m.ticks } c := by
          rename_i hsome _
          obtain ⟨c, hc⟩ := Option.ne_none_iff_exists'.1 hsome
          rw [Machine.send, hadmits.pending, show m₁.worker.child = some c from hc]
          simp only
          split
          · exact .inl (by rw [Machine.fail_worker])
          · rename_i hpos
            exact .inr ⟨c, rfl, hc, Int.not_le.1 hpos, rfl⟩
        rcases hwhich with hnone | ⟨c, hwrites⟩
        · rcases send_writes rt m₁ with hcalm | ⟨p, c, hwrites⟩
          · exact .waits m₁ _ hadmits (.inl hnone) hcalm
          · rw [hwrites.after] at hnone
            exact absurd (hwrites.pending.symm.trans hnone) (Option.some_ne_none p)
        · exact .writes m₁ _ c hadmits hwrites
      · rename_i hready
        exact .waits m₁ _ hadmits (.inr (Bool.eq_false_iff.2 hready)) (.refl m₁)

theorem calms_openRoot (m : Machine) : Calms m m.openRoot.2 := by
  rw [Machine.openRoot]
  split
  · exact .refl m
  · split
    · exact .refl m
    · split
      · exact .refl m
      · split
        · exact .refl m
        · refine Calms.trans ?_ (Calms.start _)
          exact .same [.opening m.calls] rfl (List.forall_mem_singleton.2 ⟨trivial, id⟩) ⟨rfl, rfl, rfl, rfl⟩
            (Nat.le_refl _)

theorem calms_close (m : Machine) : Calms m m.close := by
  apply Calms.failing ?_ (by decide)
  exact .same [.disposed] rfl (List.forall_mem_singleton.2 ⟨trivial, id⟩) ⟨rfl, rfl, rfl, rfl⟩ (Nat.le_refl _)

theorem calms_onTimer (call : CallId) (m : Machine) : Calms m (m.onTimer call) := by
  rw [Machine.onTimer]
  split
  · apply Calms.failing ?_ (by decide)
    exact .same [] rfl (List.forall_mem_nil _) ⟨rfl, rfl, rfl, rfl⟩ (Nat.le_refl _)
  · exact .refl m

theorem calms_onAbort (signal : SignalId) (m : Machine) : Calms m (m.onAbort signal) := by
  rw [Machine.onAbort]
  split
  · exact .refl m
  · generalize m.listeners.filter (·.2 == signal) = snapshot
    have haborted : Calms m { m with aborted := signal :: m.aborted } :=
      .same [] rfl (List.forall_mem_nil _) ⟨rfl, rfl, rfl, rfl⟩ (Nat.le_refl _)
    refine haborted.trans ?_
    generalize { m with aborted := signal :: m.aborted } = m'
    -- each listener that is still there fails the worker once more
    induction snapshot generalizing m' with
    | nil => exact .refl m'
    | cons l ls ih =>
        rw [List.foldl_cons]
        refine Calms.trans ?_ (ih _)
        split
        · apply Calms.failing ?_ (by decide)
          exact .same [] rfl (List.forall_mem_nil _) ⟨rfl, rfl, rfl, rfl⟩ (Nat.le_refl _)
        · exact .refl m'

theorem calms_onError (c : ChildId) (m : Machine) : Calms m (m.onError c) := by
  rw [Machine.onError]
  split
  · exact .fail m (by decide)
  · exact .refl m

theorem calms_onExit (c : ChildId) (m : Machine) : Calms m (m.onExit c) := by
  rw [Machine.onExit]
  split
  · exact .record m ⟨trivial, id⟩
  · exact .refl m

theorem calms_onClose (c : ChildId) (m : Machine) : Calms m (m.onClose c) := by
  rw [Machine.onClose]
  split
  · have hclosed : Calms m (m.record (.closed c)) := .record m ⟨trivial, id⟩
    simp only
    set m₁ : Machine := if (m.record (.closed c)).worker.child = some c then
      (m.record (.closed c)).fail .workerExit else m.record (.closed c) with hm₁
    have hfailed : Calms m m₁ := by
      rw [hm₁]
      split
      · exact hclosed.failing (by decide)
      · exact hclosed
    split
    · refine hfailed.trans ?_
      exact .same [] rfl (List.forall_mem_nil _) ⟨rfl, rfl, rfl, rfl⟩ (Nat.le_refl _)
    · exact hfailed
  · exact .refl m

/-- **The step lemma** for everything but chunks. -/
theorem moves_step (rt : Runtime) (m : Machine) (e : Event) (hother : ∀ c chunk, e ≠ .data c chunk) :
    Moves rt m (m.step rt e) := by
  cases e with
  | search input signal =>
      rw [Machine.step, Machine.search]
      split
      · exact .calm (.refl m)
      · split
        · exact .calm (.refl m)
        · rename_i hbusy
          split
          · exact .calm (.refl m)
          · split
            · exact .calm (.refl m)
            · split
              · exact .calm (.refl m)
              · rename_i hinput
                rw [Bool.or_eq_true, not_or, Option.isSome_iff_ne_none, not_not] at hbusy
                exact moves_accept _ signal hbusy.1 hinput
  | openRoot => exact .calm (calms_openRoot m)
  | close => exact .calm (calms_close m)
  | abort signal => exact .calm (calms_onAbort signal m)
  | timer call => exact .calm (calms_onTimer call m)
  | data c chunk => exact absurd rfl (hother c chunk)
  | childError c | stdinError c => exact .calm (calms_onError c m)
  | childExit c => exact .calm (calms_onExit c m)
  | childClose c => exact .calm (calms_onClose c m)

end Events

/-! ## §4 — the bookkeeping. -/

/-- `performance.now()` never goes back. -/
def Runtime.Steady (rt : Runtime) : Prop := ∀ i j, i ≤ j → rt.clock i ≤ rt.clock j

/-- A frame written to a child, with the search it belongs to. -/
def Entry.sentTo (c : ChildId) : Entry → Option (CallId × Bytes)
  | .wrote d call frame => if d = c then some (call, frame) else none
  | _ => none

/-- The frames written to a child, oldest first. -/
def sentTo (c : ChildId) (trace : List Entry) : List (CallId × Bytes) :=
  (trace.filterMap (Entry.sentTo c)).reverse

/-- Searches were accepted, started in the past and within their deadline when they were written. -/
structure Known (rt : Runtime) (m : Machine) : Prop where
  accepted : ∀ call request, Entry.accepted call request ∈ m.trace →
    ∃ k ≤ m.worker.sequence, ∃ input, acceptInput (requestId k) input = some request
  started : ∀ p, m.worker.pending = some p → p.startedAt ≤ rt.clock m.ticks
  wrote : ∀ c call frame, Entry.wrote c call frame ∈ m.trace → ∃ request n,
    Entry.accepted call request ∈ m.trace ∧ n ≤ request.deadlineMs ∧ frame = requestFrame request n

/-- The frame written last to a child that is ready is the one of the search in flight. -/
def Latest (m : Machine) : Prop :=
  ∀ p c, m.worker.pending = some p → m.worker.ready = true → m.worker.child = some c →
    ∃ before n, n ≤ p.request.deadlineMs ∧
      sentTo c m.trace = before ++ [(p.call, requestFrame p.request n)]

section Bookkeeping

variable {rt : Runtime} {m m' : Machine} {c : ChildId} {p : Pending}

theorem length_sentTo (c : ChildId) (trace : List Entry) : (sentTo c trace).length = asked c trace := by
  rw [sentTo, List.length_reverse, asked]
  induction trace with
  | nil => rfl
  | cons e trace ih =>
    cases e with
    | wrote d call frame =>
      by_cases hd : d = c
      · rw [List.filterMap_cons_some (by rw [Entry.sentTo, if_pos hd]),
          List.countP_cons_of_pos (by rw [Entry.asks, beq_iff_eq.2 hd]), List.length_cons, ih]
      · rw [List.filterMap_cons_none (by rw [Entry.sentTo, if_neg hd]),
          List.countP_cons_of_neg (by rw [Entry.asks, beq_eq_false_iff_ne.2 hd]; decide), ih]
    | _ => exact ih

theorem sentTo_cons_wrote (c : ChildId) (call : CallId) (frame : Bytes) (trace : List Entry) :
    sentTo c (.wrote c call frame :: trace) = sentTo c trace ++ [(call, frame)] := by
  have hhead : Entry.sentTo c (.wrote c call frame) = some (call, frame) := if_pos rfl
  rw [sentTo, List.filterMap_cons_some hhead, List.reverse_cons]
  rfl

/-- What was written stays written, in its order. -/
theorem sentTo_prefix (c : ChildId) (added trace : List Entry) :
    sentTo c trace <+: sentTo c (added ++ trace) := by
  rw [sentTo, sentTo, List.filterMap_append, List.reverse_append]
  exact List.prefix_append _ _

theorem sentTo_unsent {added : List Entry} (h : ∀ e ∈ added, e.Unsent) (c : ChildId) (trace : List Entry) :
    sentTo c (added ++ trace) = sentTo c trace := by
  have hnone : added.filterMap (Entry.sentTo c) = [] := by
    rw [List.filterMap_eq_nil_iff]
    intro e he
    have hunsent := h e he
    cases e with
    | wrote d call frame => exact hunsent.elim
    | _ => rfl
  rw [sentTo, List.filterMap_append, hnone]
  rfl

theorem mem_sentTo {call : CallId} {frame : Bytes} {trace : List Entry} :
    (call, frame) ∈ sentTo c trace ↔ Entry.wrote c call frame ∈ trace := by
  rw [sentTo, List.mem_reverse, List.mem_filterMap]
  constructor
  · rintro ⟨e, he, hsent⟩
    cases e with
    | wrote d k f =>
      rw [Entry.sentTo] at hsent
      split at hsent
      · rename_i hd
        obtain ⟨rfl, rfl⟩ := Prod.mk.inj (Option.some.inj hsent)
        rw [← hd]
        exact he
      · cases hsent
    | _ => cases hsent
  · intro h
    exact ⟨_, h, if_pos rfl⟩

theorem Adds.mem_accepted (h : Adds m m') {call : CallId} {request : WorkerRequest}
    (hmem : Entry.accepted call request ∈ m'.trace) : Entry.accepted call request ∈ m.trace := by
  obtain ⟨added, htrace, hadded⟩ := h.trace
  rw [htrace] at hmem
  exact (List.mem_append.1 hmem).resolve_left fun hin => hadded _ hin

theorem Adds.mem_wrote (h : Adds m m') {call : CallId} {frame : Bytes}
    (hmem : Entry.wrote c call frame ∈ m'.trace) : Entry.wrote c call frame ∈ m.trace := by
  obtain ⟨added, htrace, hadded⟩ := h.trace
  rw [htrace] at hmem
  exact (List.mem_append.1 hmem).resolve_left fun hin => hadded _ hin

theorem Adds.mem (h : Adds m m') {e : Entry} (hmem : e ∈ m.trace) : e ∈ m'.trace := by
  obtain ⟨added, htrace, -⟩ := h.trace
  rw [htrace]
  exact List.mem_append_right _ hmem

theorem Adds.sentTo (h : Adds m m') (c : ChildId) : sentTo c m'.trace = sentTo c m.trace := by
  obtain ⟨added, htrace, hadded⟩ := h.trace
  rw [htrace]
  exact sentTo_unsent hadded c m.trace

theorem Known.adds (hclock : rt.Steady) (h : Known rt m) (hadds : Adds m m') : Known rt m' where
  accepted call request hmem := by
    rw [hadds.sequence]
    exact h.accepted call request (hadds.mem_accepted hmem)
  started p hp := by
    rcases hadds.pending with hnone | hsame
    · rw [hnone] at hp
      cases hp
    · exact Int.le_trans (h.started p (hsame ▸ hp)) (hclock _ _ hadds.ticks)
  wrote c call frame hmem := by
    obtain ⟨request, n, haccepted, hn, hframe⟩ := h.wrote c call frame (hadds.mem_wrote hmem)
    exact ⟨request, n, hadds.mem haccepted, hn, hframe⟩

theorem Known.admits (hclock : rt.Steady) (h : Known rt m) (hadmits : Admits rt m m' p) :
    Known rt m' where
  accepted call request hmem := by
    rw [hadmits.trace] at hmem
    rcases List.mem_cons.1 hmem with heq | hmem
    · obtain ⟨-, rfl⟩ := Entry.accepted.inj heq
      exact ⟨_, Nat.le_refl _, hadmits.input⟩
    · obtain ⟨k, hk, hinput⟩ := h.accepted call request hmem
      refine ⟨k, hk.trans ?_, hinput⟩
      rw [hadmits.sequence]
      exact Nat.le_succ _
  started q hq := by
    obtain rfl : p = q := Option.some.inj (hadmits.pending.symm.trans hq)
    rw [hadmits.startedAt]
    exact hclock _ _ hadmits.ticks
  wrote c call frame hmem := by
    rw [hadmits.trace] at hmem ⊢
    have hbefore : Entry.wrote c call frame ∈ m.trace :=
      (List.mem_cons.1 hmem).resolve_left fun heq => by cases heq
    obtain ⟨request, n, haccepted, hn, hframe⟩ := h.wrote c call frame hbefore
    exact ⟨request, n, List.mem_cons_of_mem _ haccepted, hn, hframe⟩

/-- A frame is written with what is left of the deadline. -/
theorem remaining_le {now : Int} (h : p.startedAt ≤ now) (hpos : 0 < remainingMs p now) :
    (remainingMs p now).toNat ≤ p.request.deadlineMs := by
  unfold remainingMs at hpos ⊢
  omega

theorem Known.write (hclock : rt.Steady) (h : Known rt m) (hwrites : Writes rt m m' p c)
    (haccepted : Entry.accepted p.call p.request ∈ m.trace) : Known rt m' := by
  have hstarted := h.started p hwrites.pending
  rw [hwrites.after]
  constructor
  · intro call request hmem
    exact h.accepted call request ((List.mem_cons.1 hmem).resolve_left fun heq => by cases heq)
  · intro q hq
    exact Int.le_trans (h.started q hq) (hclock _ _ (Nat.le_succ _))
  · intro d call frame hmem
    rcases List.mem_cons.1 hmem with heq | hmem
    · obtain ⟨rfl, rfl, rfl⟩ := Entry.wrote.inj heq
      exact ⟨p.request, _, List.mem_cons_of_mem _ haccepted, remaining_le hstarted hwrites.remaining, rfl⟩
    · obtain ⟨request, n, hmem', hn, hframe⟩ := h.wrote d call frame hmem
      exact ⟨request, n, List.mem_cons_of_mem _ hmem', hn, hframe⟩

theorem Latest.calm (h : Latest m) (hcalm : Calms m m') : Latest m' := by
  intro p c hp hready hc
  rcases hcalm.pending with hnone | ⟨hsame, hready' | ⟨hchild, hready'⟩⟩
  · rw [hnone] at hp
    cases hp
  · rw [hready'] at hready
    cases hready
  · rw [hcalm.adds.sentTo c]
    exact h p c (hsame ▸ hp) (hready' ▸ hready) (hchild ▸ hc)

/-- Where nothing is in flight to a child that is ready, nothing is claimed. -/
theorem latest_idle (h : m.worker.pending = none ∨ m.worker.ready = false) : Latest m := by
  intro p c hp hready _
  rcases h with hnone | hfalse
  · rw [hnone] at hp
    cases hp
  · rw [hfalse] at hready
    cases hready

theorem latest_write (h : Known rt m) (hwrites : Writes rt m m' p c) : Latest m' := by
  have hstarted := h.started p hwrites.pending
  have hpending := hwrites.pending
  have hchild := hwrites.child
  rw [hwrites.after]
  intro q d hq _ hd
  obtain rfl : p = q := Option.some.inj (hpending.symm.trans hq)
  obtain rfl : c = d := Option.some.inj (hchild.symm.trans hd)
  exact ⟨sentTo c m.trace, _, remaining_le hstarted hwrites.remaining,
    sentTo_cons_wrote c p.call _ m.trace⟩

theorem known_create (rt : Runtime) (identity : Option JsString) : Known rt (Machine.create identity) where
  accepted _ _ h := by cases h
  started _ h := by cases h
  wrote _ _ _ h := by cases h

/-- An event that is not a chunk adds nothing that is told. -/
theorem Moves.trace (h : Moves rt m m') :
    ∃ added, m'.trace = added ++ m.trace ∧ ∀ e ∈ added, ¬ e.Told := by
  cases h with
  | calm h =>
    obtain ⟨added, htrace, hadded⟩ := h.trace
    exact ⟨added, htrace, fun e he => (hadded e he).2⟩
  | waits m₁ p hadmits _ h =>
    obtain ⟨added, htrace, hadded⟩ := h.trace
    refine ⟨added ++ [.accepted p.call p.request], ?_, fun e he => ?_⟩
    · rw [htrace, hadmits.trace, List.append_assoc]
      rfl
    · rcases List.mem_append.1 he with he | he
      · exact (hadded e he).2
      · rw [List.mem_singleton.1 he]
        exact id
  | writes m₁ p c hadmits h =>
    refine ⟨[.wrote c p.call (requestFrame p.request (remainingMs p (rt.clock m₁.ticks)).toNat),
      .accepted p.call p.request], ?_, fun e he => ?_⟩
    · rw [h.after, Machine.record_trace, Machine.tick_trace, hadmits.trace]
      rfl
    · rcases List.mem_cons.1 he with rfl | he
      · exact id
      · rw [List.mem_singleton.1 he]
        exact id

theorem Moves.sequence_le (h : Moves rt m m') : m.worker.sequence ≤ m'.worker.sequence := by
  cases h with
  | calm h => exact Nat.le_of_eq h.sequence.symm
  | waits m₁ p hadmits _ h =>
    rw [h.sequence, hadmits.sequence]
    exact Nat.le_succ _
  | writes m₁ p c hadmits h =>
    rw [h.after]
    show m.worker.sequence ≤ m₁.worker.sequence
    rw [hadmits.sequence]
    exact Nat.le_succ _

/-- **The bookkeeping of an event** that is not a chunk. -/
theorem Moves.keeps (hclock : rt.Steady) (hmoves : Moves rt m m') (hknown : Known rt m)
    (hlatest : Latest m) : Known rt m' ∧ Latest m' := by
  cases hmoves with
  | calm h => exact ⟨hknown.adds hclock h.adds, hlatest.calm h⟩
  | waits m₁ p hadmits hpending h =>
    exact ⟨(hknown.admits hclock hadmits).adds hclock h.adds, latest_idle hpending⟩
  | writes m₁ p c hadmits h =>
    have hadmitted := hknown.admits hclock hadmits
    have haccepted : Entry.accepted p.call p.request ∈ m₁.trace := by
      rw [hadmits.trace]
      exact List.mem_cons_self
    exact ⟨hadmitted.write hclock h haccepted, latest_write hadmitted h⟩

end Bookkeeping

end JevGrep.Client
