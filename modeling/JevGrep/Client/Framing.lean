/-
# `JevGrep.Client.Framing` — what arrives is what was written, however it is cut.

The worker process writes frames with `write_frame`; the client is handed the stream in chunks that the
operating system chooses and takes the frames off its buffer. The two talk in lock step: a hello, then at
most one reply to every request that has been sent. §1 a frame and its header; §2 one chunk; §3 the
conversation of a child with the client; §4 the other events leave the framing alone; §5 the invariant of
a conversation; §6 streams that are not a conversation.
-/
import Mathlib.Logic.Relation
import JevGrep.Client.Pinning
import JevGrep.Worker.Reply

namespace JevGrep.Client

open JevGrep.Lib JevGrep.Lib.Schema JevGrep.Lib.Transition
open JevGrep.Contracts (JsString)
open JevGrep.Worker (Bytes FRAME_CAP toBeBytes toVec writeFrame)

/-! ## §1 — a frame and its header. -/

/-- The frame of a body. -/
def frameOf (body : Bytes) : Bytes := toBeBytes body.length ++ body

/-- A body of the lengths that the two sides exchange. -/
def Sendable (body : Bytes) : Prop := 1 ≤ body.length ∧ body.length ≤ FRAME_CAP

theorem length_frameOf (body : Bytes) : (frameOf body).length = body.length + 4 := by
  rw [frameOf, List.length_append]
  exact Nat.add_comm 4 body.length

/-- No value is serialized to nothing. -/
theorem length_toVec_pos (v : Json) : 1 ≤ (toVec v).length := by
  refine List.length_pos_iff.2 fun hnil => ?_
  have hprint : Json.print v = [] := by
    apply Utf8.encode_injective
    exact hnil
  have hparse : Json.parse (Json.print v) = some v := Json.parse_print v
  rw [hprint] at hparse
  cases hparse

/-- What `write_frame` writes is the frame of a body within the cap. -/
theorem writeFrame_eq_some {v : Json} {frame : Bytes} (h : writeFrame v = some frame) :
    Sendable (toVec v) ∧ frame = frameOf (toVec v) := by
  rw [writeFrame] at h
  split at h
  · cases h
  · rename_i hcap
    exact ⟨⟨length_toVec_pos v, Nat.le_of_not_gt hcap⟩, (Option.some.inj h).symm⟩

/-- The client reads the length that the worker wrote, as soon as the header is there. -/
theorem readBe32_header {n : Nat} (h : n < 4294967296) (rest : Bytes) :
    readBe32 (toBeBytes n ++ rest) = n := by
  simp only [toBeBytes, List.cons_append, List.nil_append, readBe32, UInt8.toNat_ofNat']
  omega

theorem readBe32_append {input rest : Bytes} (h : 4 ≤ input.length) :
    readBe32 (input ++ rest) = readBe32 input := by
  match input, h with
  | _ :: _ :: _ :: _ :: _, _ => rfl

/-- The length at the head of a buffer that begins a frame. -/
theorem readBe32_of_frame {body input rest : Bytes} (hbody : Sendable body) (h : 4 ≤ input.length)
    (hframe : input ++ rest = frameOf body) : readBe32 input = body.length := by
  have hsmall : body.length < 4294967296 := Nat.lt_of_le_of_lt hbody.2 (by decide)
  rw [← readBe32_append h, hframe, frameOf, readBe32_header hsmall]

/-! ## §2 — one chunk. -/

/-- The buffer with a chunk behind it. -/
def Machine.buffer (chunk : Bytes) (m : Machine) : Machine :=
  { m with worker := { m.worker with input := m.worker.input ++ chunk } }

/-- A complete frame is taken off an otherwise empty buffer: its body is decoded and handed on. -/
def Machine.take (rt : Runtime) (c : ChildId) (body : Bytes) (m : Machine) : Machine :=
  match rt.parse body with
  | none => ({ m with worker := { m.worker with input := [] } } : Machine).fail .workerProtocol
  | some message =>
      (({ m with worker := { m.worker with input := [] } } : Machine).deliver rt c message
        body.length).1

section Chunk

variable {rt : Runtime} {c : ChildId} {m : Machine} {body chunk rest : Bytes}

/-- `send` leaves the buffer alone, or fails and empties it. -/
theorem send_buffer (rt : Runtime) (m : Machine) :
    (m.send rt).worker.input = m.worker.input ∨ (m.send rt).worker.input = [] := by
  rw [Machine.send]
  split
  · simp only
    split
    · exact .inr (by rw [Machine.fail_worker])
    · exact .inl rfl
  · exact .inl rfl

/-- So does everything a message can lead to. -/
theorem deliver_buffer (rt : Runtime) (c : ChildId) (message : Json) (size : Nat) (m : Machine) :
    (m.deliver rt c message size).1.worker.input = m.worker.input ∨
      (m.deliver rt c message size).1.worker.input = [] := by
  have hfail : ∀ (n : Machine) (code : WorkerErrorCode), (n.fail code).worker.input = [] := by
    intro n code
    rw [Machine.fail_worker]
  simp only [Machine.deliver]
  split
  · rw [Machine.respond]
    split
    · exact .inr (hfail _ _)
    · split
      · exact .inr (hfail _ _)
      · split
        · exact .inr (hfail _ _)
        · exact .inl rfl
  · rw [Machine.greet]
    split
    · exact .inr (hfail _ _)
    · split
      · exact .inr (hfail _ _)
      · rename_i hello _ _
        simp only
        split
        · exact .inr (hfail _ _)
        · set adopted := ((m.record (.delivered c message size)).record
            (.greeted c (hello.rootDev ++ units ":" ++ hello.rootIno))).adopt
            (hello.rootDev ++ units ":" ++ hello.rootIno)
          have hopened : adopted.resolveOpening.worker.input = m.worker.input := by
            rw [Machine.resolveOpening]
            split <;> rfl
          rw [← hopened]
          exact send_buffer rt adopted.resolveOpening

/-- Handing a message on leaves an empty buffer empty. -/
theorem deliver_input (rt : Runtime) (c : ChildId) (message : Json) (size : Nat)
    (hin : m.worker.input = []) : (m.deliver rt c message size).1.worker.input = [] :=
  (deliver_buffer rt c message size m).elim (fun h => h.trans hin) id

/-- The loop stops at a buffer that holds less than a header. -/
theorem drain_short (rt : Runtime) (c : ChildId) (fuel : Nat) (h : m.worker.input.length < 4) :
    m.drain rt c fuel = m := by
  cases fuel with
  | zero => rfl
  | succ fuel => rw [Machine.drain, if_pos h]

/-- **A chunk that does not complete the frame is buffered**, and nothing else happens. -/
theorem onData_partial (hc : m.worker.child = some c) (hbody : Sendable body) (hrest : rest ≠ [])
    (hframe : m.worker.input ++ chunk ++ rest = frameOf body) :
    m.onData rt c chunk = m.buffer chunk := by
  have hlen : m.worker.input.length + chunk.length + rest.length = body.length + 4 := by
    rw [← length_frameOf, ← hframe, List.length_append, List.length_append]
  have hpos : 0 < rest.length := List.length_pos_iff.2 hrest
  have hcap := hbody.2
  rw [Machine.onData, if_neg (by rw [hc]; exact not_not.2 rfl), if_neg (by omega)]
  show (m.buffer chunk).drain rt c (m.buffer chunk).worker.input.length = m.buffer chunk
  have hlength : (m.buffer chunk).worker.input.length = m.worker.input.length + chunk.length :=
    List.length_append
  by_cases hshort : (m.buffer chunk).worker.input.length < 4
  · exact drain_short rt c _ hshort
  · -- the header is there and says that more is to come
    have hsize : readBe32 (m.buffer chunk).worker.input = body.length :=
      readBe32_of_frame hbody (Nat.le_of_not_lt hshort) hframe
    obtain ⟨fuel, hfuel⟩ : ∃ fuel, (m.buffer chunk).worker.input.length = fuel + 1 :=
      ⟨_, (Nat.succ_pred_eq_of_pos (by omega)).symm⟩
    rw [hfuel, Machine.drain, if_neg hshort]
    simp only [hsize]
    have h1 := hbody.1
    rw [if_neg (by omega), if_pos (by omega)]

/-- **A chunk that completes the frame hands its body on** and leaves the buffer empty. -/
theorem onData_complete (hc : m.worker.child = some c) (hbody : Sendable body)
    (hframe : m.worker.input ++ chunk = frameOf body) : m.onData rt c chunk = m.take rt c body := by
  have hlen : m.worker.input.length + chunk.length = body.length + 4 := by
    rw [← length_frameOf, ← hframe, List.length_append]
  have h1 := hbody.1
  have hcap := hbody.2
  have hsize : readBe32 (m.worker.input ++ chunk) = body.length :=
    @readBe32_of_frame body _ [] hbody (by rw [List.length_append]; omega)
      (by rw [List.append_nil, hframe])
  have hdrop : (m.worker.input ++ chunk).drop (body.length + 4) = [] := by
    rw [List.drop_eq_nil_iff, List.length_append, hlen]
  have hbytes : ((m.worker.input ++ chunk).drop 4).take body.length = body := by
    rw [hframe, frameOf]
    exact List.take_length
  rw [Machine.onData, if_neg (by rw [hc]; exact not_not.2 rfl), if_neg (by omega)]
  simp only [List.length_append, hlen]
  rw [Machine.drain]
  simp only [List.length_append, hlen, hsize, hdrop, hbytes]
  rw [if_neg (by omega), if_neg (by omega), if_neg (by omega), Machine.take]
  cases hparse : rt.parse body with
  | none => rfl
  | some message =>
      simp only
      split
      · apply drain_short
        rw [deliver_input rt c message body.length rfl]
        decide
      · rfl

end Chunk

/-! ## §3 — the conversation of a child with the client. -/

/-- A message taken from a child, with the size of its body. -/
def Entry.takenFrom (c : ChildId) : Entry → Option (Json × Nat)
  | .delivered d message size => if d = c then some (message, size) else none
  | _ => none

/-- A request written to a child. -/
def Entry.asks (c : ChildId) : Entry → Bool
  | .wrote d .. => d == c
  | _ => false

/-- The messages taken from a child, oldest first. -/
def taken (c : ChildId) (trace : List Entry) : List (Json × Nat) :=
  (trace.filterMap (Entry.takenFrom c)).reverse

/-- How many requests a child has been sent. -/
def asked (c : ChildId) (trace : List Entry) : Nat := trace.countP (Entry.asks c)

/-- What the client makes of a body. -/
def reading (rt : Runtime) (body : Bytes) : Option (Json × Nat) := (rt.parse body).map (·, body.length)

/-- The client and one of its children. -/
structure Conversation where
  machine : Machine
  /-- The bodies the child has written, oldest first. -/
  written : List Bytes := []
  /-- What the child has written and the client has not been handed. -/
  pipe : Bytes := []

/-- One step: the child `c` writes its hello, or a reply when it has been sent a request for it; the
client is handed a piece of what was written, of any length; or anything else happens to the client. -/
inductive Talks (rt : Runtime) (c : ChildId) : Conversation → Conversation → Prop
  | hello (s : Conversation) (body : Bytes) (hspawned : c < s.machine.children)
      (hfirst : s.written = []) (hbody : Sendable body) :
      Talks rt c s { s with written := [body], pipe := s.pipe ++ frameOf body }
  | reply (s : Conversation) (body : Bytes) (hgreeted : s.written ≠ [])
      (hasked : s.written.length ≤ asked c s.machine.trace) (hbody : Sendable body) :
      Talks rt c s { s with written := s.written ++ [body], pipe := s.pipe ++ frameOf body }
  | chunk (s : Conversation) (chunk rest : Bytes) (hchunk : chunk ≠ []) (hpipe : s.pipe = chunk ++ rest) :
      Talks rt c s { s with machine := s.machine.step rt (.data c chunk), pipe := rest }
  | event (s : Conversation) (e : Event) (hother : ∀ chunk, e ≠ .data c chunk) :
      Talks rt c s { s with machine := s.machine.step rt e }

/-- The conversations of the child `c` of a worker. -/
def Conversing (rt : Runtime) (c : ChildId) (identity : Option JsString) : Conversation → Prop :=
  Relation.ReflTransGen (Talks rt c) { machine := Machine.create identity }

/-! ## §4 — the other events leave the framing alone. -/

/-- An entry that is neither a message of the child nor a request to it. -/
def Entry.aside (c : ChildId) (e : Entry) : Prop := e.takenFrom c = none ∧ e.asks c = false

section Traces

variable {c : ChildId} {added trace : List Entry}

theorem taken_append (h : ∀ e ∈ added, e.takenFrom c = none) :
    taken c (added ++ trace) = taken c trace := by
  rw [taken, List.filterMap_append, List.filterMap_eq_nil_iff.2 h]
  rfl

theorem asked_append (h : ∀ e ∈ added, e.asks c = false) : asked c (added ++ trace) = asked c trace := by
  have hnone : added.countP (Entry.asks c) = 0 := by
    rw [List.countP_eq_zero]
    intro e he
    rw [h e he]
    exact Bool.false_ne_true
  rw [asked, List.countP_append, hnone]
  exact Nat.zero_add _

theorem taken_delivered (c : ChildId) (message : Json) (size : Nat) (trace : List Entry) :
    taken c (.delivered c message size :: trace) = taken c trace ++ [(message, size)] := by
  have hfrom : Entry.takenFrom c (.delivered c message size) = some (message, size) := if_pos rfl
  rw [taken, List.filterMap_cons_some hfrom, List.reverse_cons]
  rfl

theorem asked_wrote (c : ChildId) (call : CallId) (frame : Bytes) (trace : List Entry) :
    asked c (.wrote c call frame :: trace) = asked c trace + 1 :=
  List.countP_cons_of_pos (beq_self_eq_true c)

theorem aside_fail {code : WorkerErrorCode}
    (h : ∀ e ∈ added, (∃ d, e = .killed d) ∨ ∃ k, e = .rejected k code) :
    ∀ e ∈ added, e.aside c := by
  intro e he
  rcases h e he with ⟨d, rfl⟩ | ⟨k, rfl⟩ <;> exact ⟨rfl, rfl⟩

/-- A child that has not been started has said nothing and was asked nothing. -/
theorem Core.unheard {m : Machine} (h : Core m) (hc : m.children ≤ c) :
    taken c m.trace = [] ∧ asked c m.trace = 0 := by
  have hforeign : ∀ e ∈ m.trace, e.aside c := by
    intro e he
    cases e with
    | delivered d message size =>
        have hd : d < m.children := h.children _ he d rfl
        exact ⟨if_neg (Nat.ne_of_lt (Nat.lt_of_lt_of_le hd hc)), rfl⟩
    | wrote d call frame =>
        have hd : d < m.children := h.children _ he d rfl
        exact ⟨rfl, beq_eq_false_iff_ne.2 (Nat.ne_of_lt (Nat.lt_of_lt_of_le hd hc))⟩
    | _ => exact ⟨rfl, rfl⟩
  constructor
  · rw [taken, List.filterMap_eq_nil_iff.2 fun e he => (hforeign e he).1]
    rfl
  · have hall := @asked_append c m.trace [] fun e he => (hforeign e he).2
    rw [List.append_nil] at hall
    exact hall

end Traces

/-- The request in flight. -/
def Machine.inFlight (m : Machine) : Nat := if m.worker.pending.isSome then 1 else 0

/-- A step that the child has no part in: it stays current with its buffer, or it is dropped. -/
structure Quiet (c : ChildId) (m m' : Machine) : Prop where
  children : m'.children = m.children
  messages : taken c m'.trace = taken c m.trace
  requests : asked c m'.trace = asked c m.trace
  current : m'.worker.child = some c → m.worker.child = some c ∧ m'.worker.input = m.worker.input ∧
    m'.worker.ready = m.worker.ready ∧ m'.inFlight = m.inFlight

namespace Quiet

variable {c : ChildId} {m m' m'' : Machine}

theorem refl (c : ChildId) (m : Machine) : Quiet c m m :=
  ⟨rfl, rfl, rfl, fun hc => ⟨hc, rfl, rfl, rfl⟩⟩

theorem trans (h : Quiet c m m') (h' : Quiet c m' m'') : Quiet c m m'' where
  children := h'.children.trans h.children
  messages := h'.messages.trans h.messages
  requests := h'.requests.trans h.requests
  current := fun hc => by
    obtain ⟨hchild', hinput', hready', hflight'⟩ := h'.current hc
    obtain ⟨hchild, hinput, hready, hflight⟩ := h.current hchild'
    exact ⟨hchild, hinput'.trans hinput, hready'.trans hready, hflight'.trans hflight⟩

/-- Nothing the client knows about the child changes. -/
theorem same (added : List Entry) (htrace : m'.trace = added ++ m.trace) (hadded : ∀ e ∈ added, e.aside c)
    (hchildren : m'.children = m.children) (hchild : m'.worker.child = m.worker.child)
    (hinput : m'.worker.input = m.worker.input) (hready : m'.worker.ready = m.worker.ready)
    (hpending : m'.worker.pending = m.worker.pending) : Quiet c m m' where
  children := hchildren
  messages := by rw [htrace, taken_append fun e he => (hadded e he).1]
  requests := by rw [htrace, asked_append fun e he => (hadded e he).2]
  current := fun hc => ⟨hchild ▸ hc, hinput, hready, by rw [Machine.inFlight, hpending]; rfl⟩

/-- The child is not current behind the step. -/
theorem lost (added : List Entry) (htrace : m'.trace = added ++ m.trace) (hadded : ∀ e ∈ added, e.aside c)
    (hchildren : m'.children = m.children) (hchild : m'.worker.child ≠ some c) : Quiet c m m' where
  children := hchildren
  messages := by rw [htrace, taken_append fun e he => (hadded e he).1]
  requests := by rw [htrace, asked_append fun e he => (hadded e he).2]
  current := fun hc => absurd hc hchild

theorem children_fail (m : Machine) (code : WorkerErrorCode) : (m.fail code).children = m.children := by
  have hdrop : m.dropChild.children = m.children := by
    rw [Machine.dropChild]
    split
    · rfl
    · rw [Machine.retire]
      split <;> rfl
  have hopening : (m.dropChild.rejectOpening code).children = m.dropChild.children := by
    rw [Machine.rejectOpening]
    split <;> rfl
  have hpending : (m.fail code).children = (m.dropChild.rejectOpening code).children := by
    rw [Machine.fail, Machine.rejectPending]
    split <;> rfl
  exact hpending.trans (hopening.trans hdrop)

theorem child_fail (m : Machine) (code : WorkerErrorCode) : (m.fail code).worker.child = none := by
  rw [Machine.fail_worker]

theorem fail (c : ChildId) (m : Machine) (code : WorkerErrorCode) : Quiet c m (m.fail code) := by
  obtain ⟨added, htrace, hadded⟩ := m.fail_trace code
  refine lost added htrace (aside_fail hadded) (children_fail m code) ?_
  rw [child_fail]
  exact Option.some_ne_none c |>.symm

theorem failing (h : Quiet c m m') (code : WorkerErrorCode) : Quiet c m (m'.fail code) :=
  h.trans (fail c m' code)

/-! Chunks of another child. -/

variable {d : ChildId} {rt : Runtime} {message : Json} {size : Nat}

theorem tick (c : ChildId) (m : Machine) : Quiet c m m.tick :=
  same [] rfl (List.forall_mem_nil _) rfl rfl rfl rfl rfl

theorem send (hdc : d ≠ c) (hd : m.worker.child = some d) : Quiet c m (m.send rt) := by
  rw [Machine.send]
  split
  · rename_i p b _ hb
    simp only
    split
    · exact (tick c m).failing .deadline
    · obtain rfl : d = b := Option.some.inj (hd.symm.trans hb)
      refine same [.wrote d p.call _] rfl ?_ rfl rfl rfl rfl rfl
      exact List.forall_mem_singleton.2 ⟨rfl, beq_eq_false_iff_ne.2 hdc⟩
  · exact refl c m

theorem resolveOpening (c : ChildId) (m : Machine) : Quiet c m m.resolveOpening := by
  rw [Machine.resolveOpening]
  split
  · exact refl c m
  · rename_i call _
    refine same [.opened call] rfl (List.forall_mem_singleton.2 ⟨rfl, rfl⟩)
      rfl rfl rfl rfl rfl

theorem greet (hdc : d ≠ c) (hd : m.worker.child = some d) : Quiet c m (m.greet rt d message).1 := by
  rw [Machine.greet]
  split
  · exact fail c m _
  · split
    · exact fail c m _
    · rename_i hello _ _
      simp only
      have hgreeted : Quiet c m (m.record (.greeted d (hello.rootDev ++ units ":" ++ hello.rootIno))) := by
        refine same [.greeted d _] rfl (List.forall_mem_singleton.2 ⟨rfl, rfl⟩)
          rfl rfl rfl rfl rfl
      split
      · exact hgreeted.failing _
      · refine hgreeted.trans ?_
        set greeted := m.record (.greeted d (hello.rootDev ++ units ":" ++ hello.rootIno))
        have hadopted : Quiet c greeted (greeted.adopt (hello.rootDev ++ units ":" ++ hello.rootIno)) := by
          refine lost [] rfl (List.forall_mem_nil _) rfl ?_
          show m.worker.child ≠ some c
          rw [hd]
          exact fun h => hdc (Option.some.inj h)
        refine hadopted.trans ((resolveOpening c _).trans (send hdc ?_))
        rw [Machine.resolveOpening]
        split <;> exact hd

theorem respond (hdc : d ≠ c) (hd : m.worker.child = some d) :
    Quiet c m (m.respond rt message size).1 := by
  rw [Machine.respond]
  split
  · exact fail c m _
  · rename_i p _
    split
    · exact fail c m _
    · rename_i response _
      split
      · exact (tick c m).failing .deadline
      · refine lost [.resolved p.call response] rfl (List.forall_mem_singleton.2 ⟨rfl, rfl⟩) rfl ?_
        show m.worker.child ≠ some c
        rw [hd]
        exact fun h => hdc (Option.some.inj h)

theorem deliver (hdc : d ≠ c) (hd : m.worker.child = some d) :
    Quiet c m (m.deliver rt d message size).1 := by
  have hdelivered : Quiet c m (m.record (.delivered d message size)) := by
    refine same [.delivered d message size] rfl ?_ rfl rfl rfl rfl rfl
    exact List.forall_mem_singleton.2 ⟨if_neg hdc, rfl⟩
  rw [Machine.deliver]
  split
  · exact hdelivered.trans (respond hdc hd)
  · exact hdelivered.trans (greet hdc hd)

theorem drain (hdc : d ≠ c) (fuel : Nat) :
    ∀ m : Machine, m.worker.child = some d ∨ m.worker.input = [] → Quiet c m (m.drain rt d fuel) := by
  induction fuel with
  | zero => exact fun m _ => refl c m
  | succ fuel ih =>
      intro m hd
      rw [Machine.drain]
      split
      · exact refl c m
      · rename_i hlen
        have hcur : m.worker.child = some d := by
          refine hd.resolve_right fun hnil => hlen ?_
          rw [hnil]
          decide
        have hne : m.worker.child ≠ some c := by
          rw [hcur]
          exact fun h => hdc (Option.some.inj h)
        simp only
        split
        · exact fail c m _
        · split
          · exact refl c m
          · set m' : Machine := { m with
              worker := { m.worker with input := m.worker.input.drop (readBe32 m.worker.input + 4) } }
            have hcut : Quiet c m m' := lost [] rfl (List.forall_mem_nil _) rfl hne
            split
            · exact hcut.failing _
            · split
              · rename_i hcont
                refine (hcut.trans (deliver hdc hcur)).trans (ih _ ?_)
                exact deliver_current hcur hcont
              · exact hcut.trans (deliver hdc hcur)

theorem onData (hdc : d ≠ c) (chunk : Bytes) : Quiet c m (m.onData rt d chunk) := by
  rw [Machine.onData]
  split
  · exact refl c m
  · rename_i hd
    rw [ne_eq, not_not] at hd
    split
    · exact fail c m _
    · have hbuffer : Quiet c m (m.buffer chunk) := by
        refine lost [] rfl (List.forall_mem_nil _) rfl ?_
        show m.worker.child ≠ some c
        rw [hd]
        exact fun h => hdc (Option.some.inj h)
      exact hbuffer.trans (drain hdc _ _ (.inl hd))

/-! Timers, aborts, and what the operating system reports. -/

theorem close (c : ChildId) (m : Machine) : Quiet c m m.close := by
  apply failing
  exact same [.disposed] rfl (List.forall_mem_singleton.2 ⟨rfl, rfl⟩) rfl rfl rfl rfl rfl

theorem onTimer (c : ChildId) (m : Machine) (call : CallId) : Quiet c m (m.onTimer call) := by
  rw [Machine.onTimer]
  split
  · apply failing
    exact same [] rfl (List.forall_mem_nil _) rfl rfl rfl rfl rfl
  · exact refl c m

theorem onAbort (c : ChildId) (m : Machine) (signal : SignalId) : Quiet c m (m.onAbort signal) := by
  rw [Machine.onAbort]
  split
  · exact refl c m
  · generalize m.listeners.filter (·.2 == signal) = snapshot
    have haborted : Quiet c m { m with aborted := signal :: m.aborted } :=
      same [] rfl (List.forall_mem_nil _) rfl rfl rfl rfl rfl
    refine haborted.trans ?_
    generalize { m with aborted := signal :: m.aborted } = m'
    induction snapshot generalizing m' with
    | nil => exact refl c m'
    | cons l ls ih =>
        rw [List.foldl_cons]
        refine trans ?_ (ih _)
        split
        · apply failing
          exact same [] rfl (List.forall_mem_nil _) rfl rfl rfl rfl rfl
        · exact refl c m'

theorem onError (c : ChildId) (m : Machine) (d : ChildId) : Quiet c m (m.onError d) := by
  rw [Machine.onError]
  split
  · exact fail c m _
  · exact refl c m

theorem onExit (c : ChildId) (m : Machine) (d : ChildId) : Quiet c m (m.onExit d) := by
  rw [Machine.onExit]
  split
  · refine same [.exited d] rfl (List.forall_mem_singleton.2 ⟨rfl, rfl⟩)
      rfl rfl rfl rfl rfl
  · exact refl c m

theorem onClose (c : ChildId) (m : Machine) (d : ChildId) : Quiet c m (m.onClose d) := by
  rw [Machine.onClose]
  split
  · have hclosed : Quiet c m (m.record (.closed d)) := by
      refine same [.closed d] rfl (List.forall_mem_singleton.2 ⟨rfl, rfl⟩)
        rfl rfl rfl rfl rfl
    simp only
    set m₁ : Machine := if (m.record (.closed d)).worker.child = some d then
      (m.record (.closed d)).fail .workerExit else m.record (.closed d) with hm₁
    have hfailed : Quiet c m m₁ := by
      rw [hm₁]
      split
      · exact hclosed.failing _
      · exact hclosed
    split
    · exact hfailed.trans (same [] rfl (List.forall_mem_nil _) rfl rfl rfl rfl rfl)
    · exact hfailed
  · exact refl c m

end Quiet

/-- An event that is not a chunk of the child's: quiet, or the child has only now been started, or the
request of a search is in flight to it. -/
inductive Beside (c : ChildId) (m m' : Machine) : Prop
  | quiet (h : Quiet c m m')
  | started (hchild : m'.worker.child = some m.children) (hchildren : m'.children = m.children + 1)
      (hinput : m'.worker.input = []) (hready : m'.worker.ready = false)
      (hmessages : taken c m'.trace = taken c m.trace) (hrequests : asked c m'.trace = asked c m.trace)
  | sent (hchild : m.worker.child = some c) (hinput : m'.worker.input = m.worker.input)
      (hready : m'.worker.ready = m.worker.ready) (hchildren : m'.children = m.children)
      (hmessages : taken c m'.trace = taken c m.trace)
      (hrequests : asked c m'.trace = if m.worker.ready then asked c m.trace + 1 else asked c m.trace)
      (hidle : m.inFlight = 0) (hflight : m'.inFlight = 1)

theorem beside_accept {c : ChildId} {m : Machine} (rt : Runtime) (request : WorkerRequest)
    (signal : Option SignalId) (hidle : m.worker.pending = none) :
    Beside c m (m.accept rt request signal) := by
  have hzero : m.inFlight = 0 := by
    rw [Machine.inFlight, hidle]
    rfl
  rw [Machine.accept_eq]
  set m' := m.admitted rt request signal
  have haside : ∀ e ∈ [Entry.accepted m.calls request], e.aside c :=
    List.forall_mem_singleton.2 ⟨rfl, rfl⟩
  have hmessages : taken c m'.trace = taken c m.trace := taken_append fun e he => (haside e he).1
  have hrequests : asked c m'.trace = asked c m.trace := asked_append fun e he => (haside e he).2
  have hdropped : ∀ n : Machine, n.children = m.children → taken c n.trace = taken c m.trace →
      asked c n.trace = asked c m.trace → n.worker.child ≠ some c → Beside c m n :=
    fun n hchildren ht hk hchild => .quiet ⟨hchildren, ht, hk, fun hc => absurd hc hchild⟩
  have hfail : ∀ (n : Machine) (code : WorkerErrorCode), n.trace = m'.trace →
      n.children = m.children → Beside c m (n.fail code) := by
    intro n code htrace hchildren
    have hquiet := Quiet.fail c n code
    refine hdropped _ (hquiet.children.trans hchildren) ?_ ?_ ?_
    · rw [hquiet.messages, htrace, hmessages]
    · rw [hquiet.requests, htrace, hrequests]
    · rw [Quiet.child_fail]
      exact (Option.some_ne_none c).symm
  split
  · exact hfail m' _ rfl rfl
  · split
    · -- without a child one is started
      exact .started rfl rfl rfl rfl hmessages hrequests
    · rename_i hsome
      obtain ⟨d, hd⟩ := Option.ne_none_iff_exists'.1 hsome
      have hchild : m'.worker.child = some d := hd
      split
      · rename_i hready
        rw [Machine.send]
        split
        · rename_i p b _ hb
          obtain rfl : d = b := Option.some.inj (hd.symm.trans hb)
          simp only
          split
          · exact hfail m'.tick _ rfl rfl
          · by_cases hdc : d = c
            · subst hdc
              refine .sent hd rfl rfl rfl ?_ ?_ hzero rfl
              · rw [Machine.record_trace, Machine.tick_trace, ← hmessages]
                exact @taken_append d [_] m'.trace (List.forall_mem_singleton.2 rfl)
              · rw [Machine.record_trace, asked_wrote, Machine.tick_trace, hrequests]
                exact (if_pos hready).symm
            · refine hdropped _ rfl ?_ ?_ ?_
              · rw [Machine.record_trace, Machine.tick_trace, ← hmessages]
                exact @taken_append c [_] m'.trace (List.forall_mem_singleton.2 rfl)
              · rw [Machine.record_trace, Machine.tick_trace, ← hrequests]
                exact @asked_append c [_] m'.trace
                  (List.forall_mem_singleton.2 (beq_eq_false_iff_ne.2 hdc))
              · show m'.worker.child ≠ some c
                rw [hchild]
                exact fun h => hdc (Option.some.inj h)
        · rename_i hnone
          exact absurd hd (hnone _ d rfl)
      · rename_i hready
        by_cases hdc : d = c
        · subst hdc
          refine .sent hd rfl rfl rfl hmessages ?_ hzero rfl
          rw [hrequests]
          exact (if_neg hready).symm
        · refine hdropped m' rfl hmessages hrequests ?_
          rw [hchild]
          exact fun h => hdc (Option.some.inj h)

theorem beside_openRoot (c : ChildId) (m : Machine) : Beside c m m.openRoot.2 := by
  rw [Machine.openRoot]
  split
  · exact .quiet (.refl c m)
  · split
    · exact .quiet (.refl c m)
    · split
      · exact .quiet (.refl c m)
      · split
        · exact .quiet (.refl c m)
        · exact .started rfl rfl rfl rfl rfl rfl

/-- **The step lemma** for what is not a chunk of the child's. -/
theorem beside_step {c : ChildId} {m : Machine} (rt : Runtime) (e : Event)
    (hother : ∀ chunk, e ≠ .data c chunk) : Beside c m (m.step rt e) := by
  cases e with
  | search input signal =>
      rw [Machine.step, Machine.search]
      split
      · exact .quiet (.refl c m)
      · split
        · exact .quiet (.refl c m)
        · rename_i hbusy
          split
          · exact .quiet (.refl c m)
          · split
            · exact .quiet (.refl c m)
            · split
              · exact .quiet (.refl c m)
              · rw [Bool.or_eq_true, not_or, Option.isSome_iff_ne_none, not_not] at hbusy
                exact beside_accept rt _ signal hbusy.1
  | openRoot => exact beside_openRoot c m
  | close => exact .quiet (.close c m)
  | abort signal => exact .quiet (.onAbort c m signal)
  | timer call => exact .quiet (.onTimer c m call)
  | data d chunk =>
      refine .quiet (.onData ?_ chunk)
      rintro rfl
      exact hother chunk rfl
  | childError d | stdinError d => exact .quiet (.onError c m d)
  | childExit d => exact .quiet (.onExit c m d)
  | childClose d => exact .quiet (.onClose c m d)

/-! ## §5 — the invariant of a conversation. -/

section Messages

variable {rt : Runtime} {c : ChildId} {m : Machine} {message : Json} {size : Nat}

/-- What a message does to a child that stays current behind it: the hello makes it ready and sends it
the request that was waiting, a reply takes the request it answers out of flight. -/
structure Handed (c : ChildId) (m m' : Machine) : Prop where
  child : m.worker.child = some c
  ready : m'.worker.ready = true
  hello : m.worker.ready = false →
    asked c m'.trace = asked c m.trace + m.inFlight ∧ m'.inFlight = m.inFlight
  reply : m.worker.ready = true →
    asked c m'.trace = asked c m.trace ∧ m.inFlight = 1 ∧ m'.inFlight = 0

/-- The request of a child that has become ready goes out, or the child is dropped. -/
theorem send_ready (rt : Runtime) (hc : m.worker.child = some c) :
    (m.send rt).children = m.children ∧ taken c (m.send rt).trace = taken c m.trace ∧
      ((m.send rt).worker.child = some c → (m.send rt).worker.ready = m.worker.ready ∧
        asked c (m.send rt).trace = asked c m.trace + m.inFlight ∧
        (m.send rt).inFlight = m.inFlight) := by
  rw [Machine.send]
  split
  · rename_i p b hp hb
    obtain rfl : c = b := Option.some.inj (hc.symm.trans hb)
    have hflight : m.inFlight = 1 := by
      rw [Machine.inFlight, hp]
      rfl
    simp only
    split
    · have hquiet := Quiet.fail c m.tick .deadline
      refine ⟨hquiet.children, hquiet.messages, fun h => ?_⟩
      rw [Quiet.child_fail] at h
      cases h
    · refine ⟨rfl, ?_, fun _ => ⟨rfl, ?_, rfl⟩⟩
      · exact @taken_append c [_] m.trace (List.forall_mem_singleton.2 rfl)
      · rw [Machine.record_trace, asked_wrote, Machine.tick_trace, hflight]
  · rename_i hnone
    have hp : m.worker.pending = none := by
      cases hp : m.worker.pending with
      | none => rfl
      | some p => exact absurd hc (hnone p c hp)
    have hflight : m.inFlight = 0 := by
      rw [Machine.inFlight, hp]
      rfl
    exact ⟨rfl, rfl, fun _ => ⟨rfl, by rw [hflight]; rfl, rfl⟩⟩

/-- A message is handled: it drops the child, or hands the child on. -/
structure Handles (c : ChildId) (m m' : Machine) : Prop where
  children : m'.children = m.children
  messages : taken c m'.trace = taken c m.trace
  handed : m'.worker.child = some c → Handed c m m'

theorem handles_fail {n : Machine} (code : WorkerErrorCode) (hchildren : n.children = m.children)
    (hmessages : taken c n.trace = taken c m.trace) : Handles c m (n.fail code) := by
  have hquiet := Quiet.fail c n code
  refine ⟨hquiet.children.trans hchildren, hquiet.messages.trans hmessages, fun h => ?_⟩
  rw [Quiet.child_fail] at h
  cases h

theorem handles_greet (hc : m.worker.child = some c) (hready : m.worker.ready = false) :
    Handles c m (m.greet rt c message).1 := by
  rw [Machine.greet]
  split
  · exact handles_fail _ rfl rfl
  · split
    · exact handles_fail _ rfl rfl
    · rename_i hello _ _
      set identity := hello.rootDev ++ units ":" ++ hello.rootIno
      have hgreeted : taken c (m.record (.greeted c identity)).trace = taken c m.trace :=
        @taken_append c [_] m.trace (List.forall_mem_singleton.2 rfl)
      have hunasked : asked c (m.record (.greeted c identity)).trace = asked c m.trace :=
        @asked_append c [_] m.trace (List.forall_mem_singleton.2 rfl)
      simp only
      split
      · exact handles_fail _ rfl hgreeted
      · set adopted := (m.record (.greeted c identity)).adopt identity
        have hquiet := Quiet.resolveOpening c adopted
        have hchild : adopted.resolveOpening.worker.child = some c := by
          rw [Machine.resolveOpening]
          split <;> exact hc
        obtain ⟨-, -, hkept, hflight⟩ := hquiet.current hchild
        obtain ⟨hchildren, hmessages, hsent⟩ := send_ready rt hchild
        refine ⟨hchildren.trans hquiet.children, ?_, fun h => ?_⟩
        · rw [hmessages, hquiet.messages]
          exact hgreeted
        · obtain ⟨hsready, hsasked, hsflight⟩ := hsent h
          refine ⟨hc, hsready.trans hkept, fun _ => ⟨?_, ?_⟩, fun hr => ?_⟩
          · rw [hsasked, hquiet.requests, hflight]
            exact congrArg (· + m.inFlight) hunasked
          · rw [hsflight, hflight]
            rfl
          · rw [hready] at hr
            cases hr

theorem handles_respond (hc : m.worker.child = some c) (hready : m.worker.ready = true) :
    Handles c m (m.respond rt message size).1 := by
  rw [Machine.respond]
  split
  · exact handles_fail _ rfl rfl
  · rename_i p hp
    split
    · exact handles_fail _ rfl rfl
    · rename_i response _
      split
      · exact handles_fail _ rfl rfl
      · refine ⟨rfl, ?_, fun _ => ⟨hc, hready, fun hr => ?_, fun _ => ⟨?_, ?_, rfl⟩⟩⟩
        · exact @taken_append c [_] m.trace (List.forall_mem_singleton.2 rfl)
        · rw [hready] at hr
          cases hr
        · exact @asked_append c [_] m.trace (List.forall_mem_singleton.2 rfl)
        · rw [Machine.inFlight, hp]
          rfl

/-- **A body that is handed on** is taken once, and a child that stays current has an empty buffer. -/
theorem take_handed (rt : Runtime) (body : Bytes) (hc : m.worker.child = some c) :
    (m.take rt c body).children = m.children ∧ (m.take rt c body).worker.input = [] ∧
      taken c (m.take rt c body).trace = taken c m.trace ++ (reading rt body).toList ∧
      ((m.take rt c body).worker.child = some c →
        (reading rt body).isSome = true ∧ Handed c m (m.take rt c body)) := by
  rw [Machine.take, reading]
  cases hparse : rt.parse body with
  | none =>
      have hquiet := Quiet.fail c { m with worker := { m.worker with input := [] } } .workerProtocol
      refine ⟨hquiet.children, by simp only [Machine.fail_worker], ?_, fun h => ?_⟩
      · rw [Option.map_none, Option.toList_none, List.append_nil]
        exact hquiet.messages
      · rw [Quiet.child_fail] at h
        cases h
  | some message =>
      simp only [Option.map_some, Option.toList_some, Option.isSome_some, true_and]
      set emptied : Machine := { m with worker := { m.worker with input := [] } }
      set delivered := emptied.record (.delivered c message body.length)
      have hinput := deliver_input rt c message body.length (show emptied.worker.input = [] from rfl)
      have hmessages : taken c delivered.trace = taken c m.trace ++ [(message, body.length)] :=
        taken_delivered c message body.length m.trace
      have hrequests : asked c delivered.trace = asked c m.trace :=
        @asked_append c [_] m.trace (List.forall_mem_singleton.2 rfl)
      have hhandles : Handles c delivered (emptied.deliver rt c message body.length).1 := by
        rw [Machine.deliver]
        split
        · rename_i hready
          exact handles_respond hc hready
        · rename_i hready
          exact handles_greet hc (Bool.eq_false_iff.2 hready)
      refine ⟨hhandles.children, hinput, hhandles.messages.trans hmessages, fun h => ?_⟩
      obtain ⟨-, hready, hhello, hreply⟩ := hhandles.handed h
      refine ⟨hc, hready, fun hr => ?_, fun hr => ?_⟩
      · obtain ⟨hasked, hflight⟩ := hhello hr
        exact ⟨hasked.trans (congrArg (· + m.inFlight) hrequests), hflight⟩
      · obtain ⟨hasked, hbefore, hafter⟩ := hreply hr
        exact ⟨hasked.trans hrequests, hbefore, hafter⟩

end Messages

/-! ## §6 — a conversation stays in step. -/

/-- A current child and the client are in step: the bodies `done` have been taken, and at most one more
is under way, in the buffer and in the pipe. -/
structure InStep (rt : Runtime) (c : ChildId) (s : Conversation) (done part : List Bytes) : Prop where
  written : s.written = done ++ part
  stream : s.machine.worker.input ++ s.pipe = part.flatMap frameOf
  single : part.length ≤ 1
  more : part ≠ [] → s.pipe ≠ []
  messages : (taken c s.machine.trace).map some = done.map (reading rt)
  waiting : s.machine.worker.ready = false → done = [] ∧ asked c s.machine.trace = 0
  answered : s.machine.worker.ready = true →
    done.length + s.machine.inFlight = asked c s.machine.trace + 1

/-- **What every conversation keeps**: what was written is what was taken, in order, and what is under way. -/
structure LockStep (rt : Runtime) (c : ChildId) (s : Conversation) : Prop where
  inv : Inv s.machine
  unspawned : s.machine.children ≤ c → s.written = [] ∧ s.pipe = []
  bodies : ∀ body ∈ s.written, Sendable body
  past : ∃ done, done <+: s.written ∧ (taken c s.machine.trace).map some = done.map (reading rt)
  current : s.machine.worker.child = some c → ∃ done part, InStep rt c s done part

section Conversations

variable {rt : Runtime} {c : ChildId} {s : Conversation} {done part : List Bytes}

theorem lockStep_create (rt : Runtime) (c : ChildId) (identity : Option JsString) :
    LockStep rt c { machine := Machine.create identity } where
  inv := inv_create identity
  unspawned := fun _ => ⟨rfl, rfl⟩
  bodies := List.forall_mem_nil _
  past := ⟨[], List.nil_prefix, rfl⟩
  current := fun h => by cases h

/-- A child that may write has no body under way. -/
theorem InStep.idle (h : InStep rt c s done part)
    (hwrites : s.written = [] ∨ s.written ≠ [] ∧ s.written.length ≤ asked c s.machine.trace) :
    part = [] := by
  rcases hwrites with hnil | ⟨hne, hasked⟩
  · rw [h.written] at hnil
    exact (List.append_eq_nil_iff.1 hnil).2
  · rw [h.written] at hne hasked
    rw [List.length_append] at hasked
    apply List.length_eq_zero_iff.1
    cases hready : s.machine.worker.ready with
    | false =>
        obtain ⟨-, hnone⟩ := h.waiting hready
        omega
    | true =>
        have hanswered := h.answered hready
        have hflight : s.machine.inFlight ≤ 1 := by
          rw [Machine.inFlight]
          split <;> decide
        omega

/-- The child writes a body. -/
theorem LockStep.writes (h : LockStep rt c s) {body : Bytes} (hbody : Sendable body)
    (hspawned : c < s.machine.children)
    (hwrites : s.written = [] ∨ s.written ≠ [] ∧ s.written.length ≤ asked c s.machine.trace) :
    LockStep rt c { s with written := s.written ++ [body], pipe := s.pipe ++ frameOf body } where
  inv := h.inv
  unspawned := fun hc => absurd hspawned (Nat.not_lt.2 hc)
  bodies := by
    intro b hb
    rcases List.mem_append.1 hb with hb | hb
    · exact h.bodies b hb
    · rw [List.mem_singleton.1 hb]
      exact hbody
  past := by
    obtain ⟨done, hprefix, hmessages⟩ := h.past
    exact ⟨done, hprefix.trans (List.prefix_append _ _), hmessages⟩
  current := fun hc => by
    obtain ⟨done, part, hstep⟩ := h.current hc
    obtain rfl := hstep.idle hwrites
    obtain ⟨hinput, hpipe⟩ := List.append_eq_nil_iff.1 hstep.stream
    refine ⟨done, [body], ?_, ?_, Nat.le_refl 1, fun _ => ?_, hstep.messages, hstep.waiting,
      hstep.answered⟩
    · show s.written ++ [body] = done ++ [body]
      rw [hstep.written, List.append_nil]
    · show s.machine.worker.input ++ (s.pipe ++ frameOf body) = [body].flatMap frameOf
      rw [hinput, hpipe, List.flatMap_singleton]
      rfl
    · show s.pipe ++ frameOf body ≠ []
      intro hnil
      have hlen := length_frameOf body
      rw [(List.append_eq_nil_iff.1 hnil).2] at hlen
      cases hlen

/-- A child that is under way with a body. -/
theorem InStep.underWay (h : InStep rt c s done part) (hpipe : s.pipe ≠ []) :
    ∃ body, part = [body] ∧ s.machine.worker.input ++ s.pipe = frameOf body := by
  match part, h with
  | [], h => exact absurd (List.append_eq_nil_iff.1 h.stream).2 hpipe
  | [body], h => exact ⟨body, rfl, h.stream.trans (List.flatMap_singleton _ _)⟩
  | _ :: _ :: _, h => exact absurd h.single (by simp)

/-- The buffer holds less than a frame. -/
theorem InStep.length_input (h : InStep rt c s done part) (hbodies : ∀ body ∈ s.written, Sendable body) :
    s.machine.worker.input.length ≤ FRAME_CAP + 4 := by
  by_cases hpipe : s.pipe = []
  · have hpart : part = [] := by
      by_contra hne
      exact h.more hne hpipe
    have hinput := (List.append_eq_nil_iff.1 (h.stream.trans (by rw [hpart]; rfl))).1
    rw [hinput]
    exact Nat.zero_le _
  · obtain ⟨body, hpart, hframe⟩ := h.underWay hpipe
    have hbody : Sendable body := hbodies body (by simp [h.written, hpart])
    have hlen : s.machine.worker.input.length + s.pipe.length = body.length + 4 := by
      rw [← length_frameOf, ← hframe, List.length_append]
    have hcap := hbody.2
    omega

/-- **A chunk of a conversation** completes the frame of the body under way, or is buffered. -/
theorem InStep.chunk (h : InStep rt c s done part) (hc : s.machine.worker.child = some c)
    (hbodies : ∀ body ∈ s.written, Sendable body) {chunk rest : Bytes} (hchunk : chunk ≠ [])
    (hpipe : s.pipe = chunk ++ rest) :
    ∃ body, part = [body] ∧ s.machine.worker.input.length + chunk.length ≤ FRAME_CAP + 4 ∧
      (rest ≠ [] → s.machine.onData rt c chunk = s.machine.buffer chunk) ∧
      (rest = [] → s.machine.onData rt c chunk = s.machine.take rt c body) := by
  have hne : s.pipe ≠ [] := by
    rw [hpipe]
    exact fun hnil => hchunk (List.append_eq_nil_iff.1 hnil).1
  obtain ⟨body, hpart, hframe⟩ := h.underWay hne
  have hbody : Sendable body := hbodies body (by simp [h.written, hpart])
  rw [hpipe, ← List.append_assoc] at hframe
  refine ⟨body, hpart, ?_, fun hrest => onData_partial hc hbody hrest hframe, fun hrest => ?_⟩
  · have hlen : s.machine.worker.input.length + chunk.length + rest.length = body.length + 4 := by
      rw [← length_frameOf, ← hframe, List.length_append, List.length_append]
    have hcap := hbody.2
    omega
  · rw [hrest, List.append_nil] at hframe
    exact onData_complete hc hbody hframe

/-- The client is handed a piece of what the child has written. -/
theorem LockStep.chunk (h : LockStep rt c s) {chunk rest : Bytes} (hchunk : chunk ≠ [])
    (hpipe : s.pipe = chunk ++ rest) :
    LockStep rt c { s with machine := s.machine.step rt (.data c chunk), pipe := rest } := by
  have hinv : Inv (s.machine.step rt (.data c chunk)) := inv_step rt _ h.inv
  have hspawned : ¬ s.machine.children ≤ c := by
    intro hc
    rw [(h.unspawned hc).2] at hpipe
    exact hchunk (List.append_eq_nil_iff.1 hpipe.symm).1
  by_cases hc : s.machine.worker.child = some c
  · obtain ⟨done, part, hstep⟩ := h.current hc
    obtain ⟨body, rfl, -, hpartial, hcomplete⟩ := hstep.chunk hc h.bodies hchunk hpipe
    by_cases hrest : rest = []
    · -- the frame is complete: its body is handed on
      have htake : s.machine.step rt (.data c chunk) = s.machine.take rt c body := hcomplete hrest
      obtain ⟨hchildren, hinput, hmessages, hhanded⟩ := take_handed rt body hc
      have hprefix : done ++ [body] <+: s.written := by
        rw [hstep.written]
      rw [htake] at hinv ⊢
      refine ⟨hinv, fun hle => absurd (hchildren ▸ hle) hspawned, h.bodies, ?_, fun hcur => ?_⟩
      · cases hreading : reading rt body with
        | none =>
            refine ⟨done, (List.prefix_append _ _).trans hprefix, ?_⟩
            rw [hmessages, hreading, Option.toList_none, List.append_nil]
            exact hstep.messages
        | some message =>
            refine ⟨done ++ [body], hprefix, ?_⟩
            rw [hmessages, hreading, List.map_append, List.map_append, hstep.messages,
              List.map_singleton, hreading]
            rfl
      · -- the child is still current: the body was read, and taken as its hello or as a reply
        obtain ⟨hreads, -, hready, hhello, hreply⟩ := hhanded hcur
        obtain ⟨message, hreading⟩ := Option.isSome_iff_exists.1 hreads
        refine ⟨done ++ [body], [], ?_, ?_, Nat.zero_le 1, fun hne => absurd rfl hne, ?_, ?_, ?_⟩
        · exact hstep.written.trans (List.append_nil _).symm
        · show (s.machine.take rt c body).worker.input ++ rest = []
          rw [hinput, hrest]
          rfl
        · rw [hmessages, hreading, List.map_append, List.map_append, hstep.messages,
            List.map_singleton, hreading]
          rfl
        · intro hr
          rw [hready] at hr
          cases hr
        · intro _
          show (done ++ [body]).length + (s.machine.take rt c body).inFlight
            = asked c (s.machine.take rt c body).trace + 1
          rw [List.length_append, List.length_singleton]
          cases hwas : s.machine.worker.ready with
          | false =>
              obtain ⟨hnil, hnone⟩ := hstep.waiting hwas
              obtain ⟨hasked, hflight⟩ := hhello hwas
              rw [hnil, hasked, hflight, hnone, List.length_nil]
              omega
          | true =>
              obtain ⟨hasked, hbefore, hafter⟩ := hreply hwas
              have hcount := hstep.answered hwas
              rw [hasked, hafter]
              omega
    · -- a part of the frame is buffered
      have hbuffer : s.machine.step rt (.data c chunk) = s.machine.buffer chunk := hpartial hrest
      rw [hbuffer] at hinv ⊢
      refine ⟨hinv, fun hle => absurd hle hspawned, h.bodies, h.past, fun _ => ?_⟩
      refine ⟨done, [body], hstep.written, ?_, hstep.single, fun _ => hrest, hstep.messages,
        hstep.waiting, hstep.answered⟩
      show (s.machine.worker.input ++ chunk) ++ rest = [body].flatMap frameOf
      rw [List.append_assoc, ← hpipe]
      exact hstep.stream
  · -- the handler of a child that is not current does nothing
    have hignored : s.machine.step rt (.data c chunk) = s.machine := if_pos hc
    rw [hignored]
    exact ⟨h.inv, fun hle => absurd hle hspawned, h.bodies, h.past, fun hcur => absurd hcur hc⟩

/-- Anything else happens to the client. -/
theorem LockStep.event (h : LockStep rt c s) {e : Event} (hother : ∀ chunk, e ≠ .data c chunk) :
    LockStep rt c { s with machine := s.machine.step rt e } := by
  have hinv : Inv (s.machine.step rt e) := inv_step rt e h.inv
  cases beside_step rt e hother with
  | quiet hquiet =>
      refine ⟨hinv, fun hle => h.unspawned (hquiet.children ▸ hle), h.bodies, ?_, fun hcur => ?_⟩
      · rw [hquiet.messages]
        exact h.past
      · obtain ⟨hchild, hinput, hready, hflight⟩ := hquiet.current hcur
        obtain ⟨done, part, hstep⟩ := h.current hchild
        refine ⟨done, part, hstep.written, ?_, hstep.single, hstep.more, ?_, ?_, ?_⟩
        · show (s.machine.step rt e).worker.input ++ s.pipe = _
          rw [hinput]
          exact hstep.stream
        · rw [hquiet.messages]
          exact hstep.messages
        · rw [hready, hquiet.requests]
          exact hstep.waiting
        · rw [hready, hquiet.requests, hflight]
          exact hstep.answered
  | started hchild hchildren hinput hready hmessages hrequests =>
      refine ⟨hinv, fun hle => h.unspawned ?_, h.bodies, ?_, fun hcur => ?_⟩
      · have hle' : (s.machine.step rt e).children ≤ c := hle
        rw [hchildren] at hle'
        exact Nat.le_of_succ_le hle'
      · rw [hmessages]
        exact h.past
      · -- the new child has been told nothing, and has said nothing
        obtain rfl : s.machine.children = c := Option.some.inj (hchild.symm.trans hcur)
        obtain ⟨hwritten, hpipe⟩ := h.unspawned (Nat.le_refl _)
        obtain ⟨htaken, hasked⟩ := h.inv.toCore.unheard (Nat.le_refl _)
        refine ⟨[], [], hwritten, ?_, Nat.zero_le 1, fun hne => absurd rfl hne, ?_, fun _ => ⟨rfl, ?_⟩,
          fun hr => ?_⟩
        · show (s.machine.step rt e).worker.input ++ s.pipe = []
          rw [hinput, hpipe]
          rfl
        · rw [hmessages, htaken]
          rfl
        · rw [hrequests, hasked]
        · rw [hready] at hr
          cases hr
  | sent hchild hinput hready hchildren hmessages hrequests hidle hflight =>
      refine ⟨hinv, fun hle => h.unspawned (hchildren ▸ hle), h.bodies, ?_, fun _ => ?_⟩
      · rw [hmessages]
        exact h.past
      · obtain ⟨done, part, hstep⟩ := h.current hchild
        refine ⟨done, part, hstep.written, ?_, hstep.single, hstep.more, ?_, fun hr => ?_, fun hr => ?_⟩
        · show (s.machine.step rt e).worker.input ++ s.pipe = _
          rw [hinput]
          exact hstep.stream
        · rw [hmessages]
          exact hstep.messages
        · rw [hready] at hr
          rw [hrequests, hr]
          exact hstep.waiting hr
        · rw [hready] at hr
          have hcount := hstep.answered hr
          rw [hrequests, if_pos hr, hflight]
          omega

/-- **The step lemma.** -/
theorem lockStep_talks {s' : Conversation} (h : LockStep rt c s) (hstep : Talks rt c s s') :
    LockStep rt c s' := by
  cases hstep with
  | hello body hspawned hfirst hbody =>
      have hwrites := h.writes hbody hspawned (.inl hfirst)
      rw [hfirst] at hwrites
      exact hwrites
  | reply body hgreeted hasked hbody =>
      refine h.writes hbody ?_ (.inr ⟨hgreeted, hasked⟩)
      exact Nat.lt_of_not_le fun hle => hgreeted (h.unspawned hle).1
  | chunk chunk rest hchunk hpipe => exact h.chunk hchunk hpipe
  | event e hother => exact h.event hother

/-- **The run lemma.** -/
theorem lockStep_of_conversing {identity : Option JsString} (h : Conversing rt c identity s) :
    LockStep rt c s := by
  induction h with
  | refl => exact lockStep_create rt c identity
  | tail _ hstep ih => exact lockStep_talks ih hstep

end Conversations

/-! ## §7 — any other stream. -/

/-- The length at the head of the buffer. -/
def Machine.size (m : Machine) : Nat := readBe32 m.worker.input

/-- The buffer behind its first frame. -/
def Machine.advance (m : Machine) : Machine :=
  { m with worker := { m.worker with input := m.worker.input.drop (m.size + 4) } }

/-- The body of the first frame. -/
def Machine.body (m : Machine) : Bytes := (m.worker.input.drop 4).take m.size

/-- The buffer begins with a complete frame. -/
def Machine.Framed (m : Machine) : Prop :=
  1 ≤ m.size ∧ m.size ≤ FRAME_CAP ∧ m.size + 4 ≤ m.worker.input.length

/-- A round of the data loop that does not leave it. -/
def Round (rt : Runtime) (c : ChildId) (m m' : Machine) : Prop :=
  4 ≤ m.worker.input.length ∧ m.Framed ∧
    ∃ message, rt.parse m.body = some message ∧ m.advance.deliver rt c message m.size = (m', true)

section Streams

variable {rt : Runtime} {c : ChildId} {m m' : Machine}

/-- The loop at a complete frame. -/
theorem drain_framed {fuel : Nat} (h : m.Framed) :
    m.drain rt c (fuel + 1) =
      match rt.parse m.body with
      | none => m.advance.fail .workerProtocol
      | some message =>
          if (m.advance.deliver rt c message m.size).2 = true then
            (m.advance.deliver rt c message m.size).1.drain rt c fuel
          else (m.advance.deliver rt c message m.size).1 := by
  obtain ⟨hpos, hcap, hwhole⟩ := h
  have hshort : ¬ m.worker.input.length < 4 := by omega
  have hsize : ¬ (readBe32 m.worker.input = 0 ∨ readBe32 m.worker.input > FRAME_CAP) := by
    change ¬ (m.size = 0 ∨ m.size > FRAME_CAP)
    omega
  have hcut : ¬ m.worker.input.length < readBe32 m.worker.input + 4 := Nat.not_lt.2 hwhole
  rw [Machine.drain, if_neg hshort]
  simp only
  rw [if_neg hsize, if_neg hcut]
  rfl

/-- A round takes a frame off the buffer. -/
theorem drain_round {fuel : Nat} (h : Round rt c m m') : m.drain rt c (fuel + 1) = m'.drain rt c fuel := by
  obtain ⟨-, hframed, message, hparse, hdeliver⟩ := h
  rw [drain_framed hframed]
  simp only [hparse, hdeliver]
  rfl

theorem length_round (h : Round rt c m m') : m'.worker.input.length < m.worker.input.length := by
  obtain ⟨hlen, ⟨hpos, -, hwhole⟩, message, -, hdeliver⟩ := h
  have hbuffer := deliver_buffer rt c message m.size m.advance
  rw [hdeliver] at hbuffer
  rcases hbuffer with hsame | hnil
  · have hadvance : m.advance.worker.input.length = m.worker.input.length - (m.size + 4) :=
      List.length_drop
    rw [hsame, hadvance]
    omega
  · rw [hnil, List.length_nil]
    omega

/-- The loop goes through its rounds, with fuel enough for what is left. -/
theorem drain_rounds {fuel : Nat} (hfuel : m.worker.input.length ≤ fuel)
    (h : Relation.ReflTransGen (Round rt c) m m') :
    ∃ left, m'.worker.input.length ≤ left ∧ m.drain rt c fuel = m'.drain rt c left := by
  induction h with
  | refl => exact ⟨fuel, hfuel, rfl⟩
  | tail _ hround ih =>
      obtain ⟨left, hleft, hdrain⟩ := ih
      have hless := length_round hround
      obtain ⟨less, rfl⟩ : ∃ less, left = less + 1 := ⟨left - 1, by omega⟩
      exact ⟨less, by omega, hdrain.trans (drain_round hround)⟩

/-- Between rounds the child is current, or nothing is left to read. -/
theorem current_of_rounds (hc : m.worker.child = some c)
    (h : Relation.ReflTransGen (Round rt c) m m') :
    m'.worker.child = some c ∨ m'.worker.input = [] := by
  induction h with
  | refl => exact .inl hc
  | tail _ hround ih =>
      obtain ⟨hlen, -, message, -, hdeliver⟩ := hround
      have hcur := ih.resolve_right fun hnil => by
        rw [hnil] at hlen
        cases hlen
      have hcont : (Machine.deliver rt c message (Machine.size _) (Machine.advance _)).2 = true :=
        congrArg Prod.snd hdeliver
      have hstays := deliver_current (m := Machine.advance _) hcur hcont
      rw [hdeliver] at hstays
      exact hstays

/-- An entry that tells a caller something, or makes a child usable. -/
def Entry.gives : Entry → Bool
  | .resolved .. | .opened _ | .greeted .. | .wrote .. => true
  | _ => false

/-- The child has been failed instead of being listened to. -/
structure Refused (c : ChildId) (before after : Machine) : Prop where
  child : after.worker.child = none
  gone : Gone after.trace c
  input : after.worker.input = []
  trace : ∃ added, after.trace = added ++ before.trace ∧ ∀ e ∈ added, e.gives = false

theorem refused_fail {code : WorkerErrorCode} {n : Machine} (hc : n.worker.child = some c)
    {added : List Entry} (htrace : n.trace = added ++ m.trace) (hadded : ∀ e ∈ added, e.gives = false) :
    Refused c m (n.fail code) := by
  obtain ⟨more, hmore, hkinds⟩ := n.fail_trace code
  refine ⟨Quiet.child_fail n code, gone_fail hc code, by rw [Machine.fail_worker], more ++ added, ?_,
    fun e he => ?_⟩
  · rw [hmore, htrace, List.append_assoc]
  · rcases List.mem_append.1 he with he | he
    · rcases hkinds e he with ⟨d, rfl⟩ | ⟨k, rfl⟩ <;> rfl
    · exact hadded e he

/-- **What is no reply is refused**: wherever the loop stands, a length outside the cap fails the child
and takes no message, and a complete frame nobody waits for fails it as well. -/
theorem onData_refuses {chunk : Bytes} (hc : m.worker.child = some c)
    (hcap : m.worker.input.length + chunk.length ≤ FRAME_CAP + 4)
    (hrounds : Relation.ReflTransGen (Round rt c) (m.buffer chunk) m') :
    (4 ≤ m'.worker.input.length → m'.size = 0 ∨ FRAME_CAP < m'.size →
      Refused c m' (m.onData rt c chunk) ∧ taken c (m.onData rt c chunk).trace = taken c m'.trace) ∧
    (m'.Framed → m'.worker.ready = true → m'.worker.pending = none →
      Refused c m' (m.onData rt c chunk)) := by
  have hdata : m.onData rt c chunk = (m.buffer chunk).drain rt c (m.buffer chunk).worker.input.length := by
    rw [Machine.onData, if_neg (by rw [hc]; exact not_not.2 rfl), if_neg (Nat.not_lt.2 hcap)]
    rfl
  obtain ⟨left, hleft, hdrain⟩ := drain_rounds (Nat.le_refl _) hrounds
  have hcur : 4 ≤ m'.worker.input.length → m'.worker.child = some c := by
    intro hlen
    refine (current_of_rounds (m := m.buffer chunk) hc hrounds).resolve_right fun hnil => ?_
    rw [hnil] at hlen
    cases hlen
  rw [hdata, hdrain]
  constructor
  · intro hlen hsize
    obtain ⟨less, rfl⟩ : ∃ less, left = less + 1 := ⟨left - 1, by omega⟩
    have hfails : m'.drain rt c (less + 1) = m'.fail .workerProtocol := by
      rw [Machine.drain, if_neg (Nat.not_lt.2 hlen)]
      exact if_pos hsize
    rw [hfails]
    exact ⟨refused_fail (hcur hlen) (List.nil_append _).symm (List.forall_mem_nil _),
      (Quiet.fail c m' _).messages⟩
  · intro hframed hready hidle
    have hlen : 4 ≤ m'.worker.input.length := Nat.le_trans (Nat.le_add_left 4 _) hframed.2.2
    obtain ⟨less, rfl⟩ : ∃ less, left = less + 1 := ⟨left - 1, by omega⟩
    rw [drain_framed hframed]
    split
    · exact @refused_fail c m' .workerProtocol m'.advance (hcur hlen) [] rfl (List.forall_mem_nil _)
    · rename_i message _
      set recorded := m'.advance.record (.delivered c message m'.size)
      have hdeliver : m'.advance.deliver rt c message m'.size = (recorded.fail .workerProtocol, false) := by
        have hresponse : recorded.respond rt message m'.size = (recorded.fail .workerProtocol, false) := by
          have hnone : recorded.worker.pending = none := hidle
          rw [Machine.respond]
          simp only [hnone]
        rw [← hresponse]
        exact if_pos hready
      rw [hdeliver]
      exact @refused_fail c m' .workerProtocol recorded (hcur hlen) [_] rfl
        (List.forall_mem_singleton.2 rfl)

end Streams

/-- **Framing is independent of chunking.** `write_frame` writes the frame of its body. In a conversation,
in whatever pieces the client is handed the stream: a child's bodies are taken in the order they were
written, each at most once; as long as the child is current all of them are taken that have arrived whole,
the buffer is empty behind each of them, and it never outgrows the cap with the chunk that comes next, which
is buffered or completes the body under way. On any stream, a length outside the cap, and a complete frame
nobody waits for, fail the child. -/
theorem framing_independent_of_chunking (rt : Runtime) (c : ChildId) (identity : Option JsString) :
    (∀ v frame, writeFrame v = some frame → Sendable (toVec v) ∧ frame = frameOf (toVec v)) ∧
    (∀ s, Conversing rt c identity s →
      (∃ done, done <+: s.written ∧ (taken c s.machine.trace).map some = done.map (reading rt)) ∧
      (s.machine.worker.child = some c →
        (s.pipe = [] → s.machine.worker.input = [] ∧
          (taken c s.machine.trace).map some = s.written.map (reading rt)) ∧
        ∃ done part, InStep rt c s done part ∧ s.machine.worker.input.length ≤ FRAME_CAP + 4 ∧
          ∀ chunk rest, chunk ≠ [] → s.pipe = chunk ++ rest →
            ∃ body, part = [body] ∧ s.machine.worker.input.length + chunk.length ≤ FRAME_CAP + 4 ∧
              (rest ≠ [] → s.machine.onData rt c chunk = s.machine.buffer chunk) ∧
              (rest = [] → s.machine.onData rt c chunk = s.machine.take rt c body))) ∧
    (∀ (m m' : Machine) (chunk : Bytes), m.worker.child = some c →
      m.worker.input.length + chunk.length ≤ FRAME_CAP + 4 →
      Relation.ReflTransGen (Round rt c) (m.buffer chunk) m' →
      (4 ≤ m'.worker.input.length → m'.size = 0 ∨ FRAME_CAP < m'.size →
        Refused c m' (m.onData rt c chunk) ∧
          taken c (m.onData rt c chunk).trace = taken c m'.trace) ∧
      (m'.Framed → m'.worker.ready = true → m'.worker.pending = none →
        Refused c m' (m.onData rt c chunk))) := by
  refine ⟨fun v frame => writeFrame_eq_some, fun s hs => ?_, fun m m' chunk => onData_refuses⟩
  have hlock := lockStep_of_conversing hs
  refine ⟨hlock.past, fun hc => ?_⟩
  obtain ⟨done, part, hstep⟩ := hlock.current hc
  refine ⟨fun hpipe => ?_, done, part, hstep, ?_, fun chunk rest => hstep.chunk hc hlock.bodies⟩
  · have hpart : part = [] := by
      by_contra hne
      exact hstep.more hne hpipe
    have hstream := hstep.stream
    have hwritten := hstep.written
    rw [hpart, hpipe, List.append_nil] at hstream
    rw [hpart, List.append_nil] at hwritten
    refine ⟨hstream, ?_⟩
    rw [hwritten]
    exact hstep.messages
  · exact hstep.length_input hlock.bodies

/-- A client whose process has the pid 7. -/
def sampleRuntime : Runtime where
  clock := fun _ => 0
  pid := fun _ => some 7
  parse := fun body => (Utf8.decode body).bind Json.parse

/-- The hello of the sample, and a reply to its first request. -/
def sampleHello : Bytes :=
  toVec (objectOf [("v", some (.nat 1)), ("status", some (.str (units "ready"))), ("pid", some (.nat 7)),
    ("matcher", some (.str (units "grep-regex-0.1.14"))), ("rootDev", some (.str (units "1"))),
    ("rootIno", some (.str (units "2")))])

def sampleReply : Bytes :=
  toVec (Worker.Failure.json { v := 1, id := "q-1".toList, code := .readFailed })

/-- A hello in two pieces, a search, and its reply in two pieces. -/
def sampleEvents : List Event :=
  [.openRoot, .data 0 ((frameOf sampleHello).take 3), .data 0 ((frameOf sampleHello).drop 3),
    .search [(units "pattern", .str (units "a"))] none,
    .data 0 ((frameOf sampleReply).take 20), .data 0 ((frameOf sampleReply).drop 20)]

@[irreducible]
def sampleMachine (n : Nat) : Machine := Machine.after sampleRuntime none (sampleEvents.take n)

theorem sampleMachine_succ {n : Nat} {e : Event} (h : sampleEvents[n]? = some e) :
    sampleMachine (n + 1) = (sampleMachine n).step sampleRuntime e := by
  rw [sampleMachine, sampleMachine, List.take_add_one, h, Machine.after, run_append]
  rfl

theorem conversing_sample : Conversing sampleRuntime 0 none
    { machine := sampleMachine 6, written := [sampleHello, sampleReply], pipe := [] } := by
  have h1 : Conversing sampleRuntime 0 none { machine := sampleMachine 1 } := by
    rw [@sampleMachine_succ 0 .openRoot rfl, sampleMachine]
    exact .tail .refl (.event _ .openRoot (fun _ h => by cases h))
  have h2 : Conversing sampleRuntime 0 none
      { machine := sampleMachine 1, written := [sampleHello], pipe := frameOf sampleHello } :=
    h1.tail (.hello _ sampleHello (by decide +kernel) rfl ⟨by decide +kernel, by decide +kernel⟩)
  have h3 : Conversing sampleRuntime 0 none
      { machine := sampleMachine 2, written := [sampleHello], pipe := (frameOf sampleHello).drop 3 } := by
    rw [@sampleMachine_succ 1 (.data 0 ((frameOf sampleHello).take 3)) rfl]
    exact h2.tail (.chunk _ _ _ (by decide +kernel) (List.take_append_drop 3 (frameOf sampleHello)).symm)
  have h4 : Conversing sampleRuntime 0 none
      { machine := sampleMachine 3, written := [sampleHello], pipe := [] } := by
    rw [@sampleMachine_succ 2 (.data 0 ((frameOf sampleHello).drop 3)) rfl]
    exact h3.tail (.chunk _ _ [] (by decide +kernel) (List.append_nil _).symm)
  have h5 : Conversing sampleRuntime 0 none
      { machine := sampleMachine 4, written := [sampleHello], pipe := [] } := by
    rw [@sampleMachine_succ 3 (.search [(units "pattern", .str (units "a"))] none) rfl]
    exact h4.tail (.event _ _ (fun _ h => by cases h))
  have hasked : [sampleHello].length ≤ asked 0 (sampleMachine 4).trace := by decide +kernel
  have hsendable : Sendable sampleReply := ⟨by decide +kernel, by decide +kernel⟩
  have h6 : Conversing sampleRuntime 0 none
      { machine := sampleMachine 4, written := [sampleHello, sampleReply], pipe := frameOf sampleReply } :=
    h5.tail (.reply _ sampleReply (List.cons_ne_nil _ _) hasked hsendable)
  have h7 : Conversing sampleRuntime 0 none
      { machine := sampleMachine 5, written := [sampleHello, sampleReply],
        pipe := (frameOf sampleReply).drop 20 } := by
    rw [@sampleMachine_succ 4 (.data 0 ((frameOf sampleReply).take 20)) rfl]
    exact h6.tail (.chunk _ _ _ (by decide +kernel) (List.take_append_drop 20 (frameOf sampleReply)).symm)
  rw [@sampleMachine_succ 5 (.data 0 ((frameOf sampleReply).drop 20)) rfl]
  exact h7.tail (.chunk _ _ [] (by decide +kernel) (List.append_nil _).symm)

/-- The two bodies of the sample are taken, and the reply once more is refused. -/
theorem framing_independent_of_chunking_sample :
    (taken 0 (sampleMachine 6).trace).map some = [sampleHello, sampleReply].map (reading sampleRuntime) ∧
      Refused 0 ((sampleMachine 6).buffer (frameOf sampleReply))
        ((sampleMachine 6).onData sampleRuntime 0 (frameOf sampleReply)) := by
  obtain ⟨-, hconversation, hstream⟩ := framing_independent_of_chunking sampleRuntime 0 none
  have hcurrent : (sampleMachine 6).worker.child = some 0 := by decide +kernel
  have hready : (sampleMachine 6).worker.ready = true := by decide +kernel
  have hidle : (sampleMachine 6).worker.pending.isNone = true := by decide +kernel
  have hempty : (sampleMachine 6).worker.input = [] := by decide +kernel
  constructor
  · exact (((hconversation _ conversing_sample).2 hcurrent).1 rfl).2
  · have hbytes : (frameOf sampleReply).length ≤ FRAME_CAP + 4 := by decide +kernel
    have hroom : (sampleMachine 6).worker.input.length + (frameOf sampleReply).length
        ≤ FRAME_CAP + 4 := by
      rw [hempty, List.length_nil, Nat.zero_add]
      exact hbytes
    refine (hstream (sampleMachine 6) ((sampleMachine 6).buffer (frameOf sampleReply))
      (frameOf sampleReply) hcurrent hroom .refl).2 ?_ hready (Option.isNone_iff_eq_none.1 hidle)
    have hinput : ((sampleMachine 6).buffer (frameOf sampleReply)).worker.input = frameOf sampleReply := by
      show (sampleMachine 6).worker.input ++ frameOf sampleReply = _
      rw [hempty]
      rfl
    rw [Machine.Framed, Machine.size, hinput]
    exact ⟨by decide +kernel, by decide +kernel, by decide +kernel⟩

end JevGrep.Client
