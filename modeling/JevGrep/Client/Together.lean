/-
# `JevGrep.Client.Together` — the client and its worker processes, together.

The worker object, every process it ever started and the two pipes of each of them, as one system. A process
runs the loop of `native/worker` on the root it opened; the client is handed its output in pieces; searches,
aborts, timers and what the operating system reports come in any order, and the files may change between any
two calls. Nothing of the two sides is assumed but what each of them is: that the client resolves a search
with the worker's own answer, and breaks off with a protocol error for no other reason than a request that
cannot be carried, is what they come to.

* §1 a request and its header; §2 the system; §3 a process and what it was sent; §4 a whole body;
§5 the run.
-/
import JevGrep.Client.Journal
import JevGrep.Worker.Session

namespace JevGrep.Client

open JevGrep.Lib JevGrep.Lib.Schema JevGrep.Lib.Utf16 JevGrep.Lib.Transition
open JevGrep.Contracts (JsString pathSchema)
open JevGrep.Worker (Bytes FRAME_CAP Code Success Stat toBeBytes toVec writeFrame reply invalidReply fromSlice)

/-! ## §1 — a request and its header. -/

theorem be32_eq (n : Nat) : be32 n = toBeBytes n := by
  have hbyte : ∀ k : Nat, UInt8.ofNat k = UInt8.ofNat (k % 256) := by
    intro k
    apply UInt8.toNat.inj
    rw [UInt8.toNat_ofNat', UInt8.toNat_ofNat']
    omega
  rw [be32, toBeBytes, hbyte (n / 65536), hbyte (n / 256), hbyte n]

theorem requestFrame_eq (r : WorkerRequest) (n : Nat) : requestFrame r n = frameOf (requestBody r n) := by
  rw [requestFrame, be32_eq, frameOf]

/-- The strings of a request are short, each by the bound of its field. -/
structure Bounded (r : WorkerRequest) : Prop where
  pattern : r.pattern.length ≤ 8192
  id : r.id.length ≤ 128
  limits : r.maxMatches ≤ MAX_SAFE_INTEGER ∧ r.maxFileBytes ≤ MAX_SAFE_INTEGER ∧
    r.responseBytes ≤ MAX_SAFE_INTEGER ∧ r.deadlineMs ≤ MAX_SAFE_INTEGER ∧
    r.maxEntries ≤ MAX_SAFE_INTEGER ∧ r.maxDepth ≤ MAX_SAFE_INTEGER
  scope : ∀ s, r.scope = some s → s.includeGroups.length ≤ 2 ∧ s.exclude.length ≤ 128 ∧
    (∀ g ∈ s.includeGroups, g.length ≤ 64 ∧ ∀ p ∈ g, p.length ≤ 1024) ∧ ∀ p ∈ s.exclude, p.length ≤ 1024
  read : ∀ q, r.read = some q → q.path.length ≤ 4096 ∧ q.range.start ≤ MAX_SAFE_INTEGER ∧
    q.range.stop ≤ MAX_SAFE_INTEGER ∧ ∀ d, q.expectedFileSha256 = some d → d.length ≤ 64

section Sizes

theorem length_of_boundedString {least most : Nat} {v : Json} {s : JsString}
    (h : boundedString least most v = some s) : s.length ≤ most := by
  have hbounds := (Option.filter_eq_some_iff.1 h).2
  rw [Bool.and_eq_true, decide_eq_true_eq, decide_eq_true_eq] at hbounds
  exact hbounds.2

theorem bounded_scope {v : Json} {s : WorkerScope} (h : workerScopeSchema v = some s) :
    s.includeGroups.length ≤ 2 ∧ s.exclude.length ≤ 128 ∧
      (∀ g ∈ s.includeGroups, g.length ≤ 64 ∧ ∀ p ∈ g, p.length ≤ 1024) ∧
      ∀ p ∈ s.exclude, p.length ≤ 1024 := by
  obtain ⟨_, -, h⟩ := bind_some h
  obtain ⟨groups, hgroups, h⟩ := bind_some h
  obtain ⟨exclude, hexclude, h⟩ := bind_some h
  obtain ⟨hidden, -, h⟩ := bind_some h
  obtain ⟨respect, -, h⟩ := bind_some h
  obtain rfl := Option.some.inj h
  obtain ⟨_, hgroups⟩ := required_eq_some hgroups
  obtain ⟨_, hexclude⟩ := required_eq_some hexclude
  obtain ⟨hcount, heach⟩ := array_some hgroups
  obtain ⟨hexcludes, hpatterns⟩ := array_some hexclude
  refine ⟨hcount, hexcludes, fun g hg => ?_, fun p hp => ?_⟩
  · obtain ⟨w, hw⟩ := heach g hg
    obtain ⟨hlen, hitems⟩ := array_some hw
    refine ⟨hlen, fun p hp => ?_⟩
    obtain ⟨w', hw'⟩ := hitems p hp
    exact length_of_boundedString hw'
  · obtain ⟨w, hw⟩ := hpatterns p hp
    exact length_of_boundedString hw

theorem length_path_of_read {v : Json} {q : WorkerRead} (h : workerReadSchema v = some q) :
    q.path.length ≤ 4096 := by
  obtain ⟨_, -, h⟩ := bind_some h
  obtain ⟨path, hpath, h⟩ := bind_some h
  obtain ⟨range, -, h⟩ := bind_some h
  obtain ⟨digest, -, h⟩ := bind_some h
  obtain rfl := Option.some.inj h
  obtain ⟨_, hpath⟩ := required_eq_some hpath
  have hschema := (Option.filter_eq_some_iff.1 hpath).2
  rw [pathSchema, Bool.and_eq_true, Bool.and_eq_true, decide_eq_true_eq, decide_eq_true_eq] at hschema
  exact hschema.1.2

theorem bounded_of_accepted {k : Nat} {input : List (List UInt16 × Json)} {r : WorkerRequest}
    (hk : k ≤ MAX_SAFE_INTEGER) (h : acceptInput (requestId k) input = some r) : Bounded r := by
  have hspec := acceptInput_spec h
  obtain ⟨hschema, -⟩ := Option.filter_eq_some_iff.1 h
  obtain ⟨_, -, hschema⟩ := bind_some hschema
  obtain ⟨pattern, hpattern, hschema⟩ := bind_some hschema
  obtain ⟨kind, -, hschema⟩ := bind_some hschema
  obtain ⟨caseSensitive, -, hschema⟩ := bind_some hschema
  obtain ⟨maxMatches, -, hschema⟩ := bind_some hschema
  obtain ⟨maxFileBytes, -, hschema⟩ := bind_some hschema
  obtain ⟨responseBytes, -, hschema⟩ := bind_some hschema
  obtain ⟨deadlineMs, -, hschema⟩ := bind_some hschema
  obtain ⟨scope, hscope, hschema⟩ := bind_some hschema
  obtain ⟨validate, -, hschema⟩ := bind_some hschema
  obtain ⟨read, hread, hschema⟩ := bind_some hschema
  obtain ⟨maxEntries, -, hschema⟩ := bind_some hschema
  obtain ⟨maxDepth, -, hschema⟩ := bind_some hschema
  obtain rfl := Option.some.inj hschema
  obtain ⟨_, hpattern⟩ := required_eq_some hpattern
  have hcap : FRAME_CAP ≤ MAX_SAFE_INTEGER ∧ 16777216 ≤ MAX_SAFE_INTEGER := by decide
  have hlimits := hspec.maxMatches
  have hfile := hspec.maxFileBytes
  have hresponse := hspec.responseBytes
  have hdeadline := hspec.deadlineMs
  have hentries := hspec.maxEntries
  have hdepth := hspec.maxDepth
  constructor
  · exact length_of_boundedString hpattern
  · exact (length_encode_requestId hk).2
  · omega
  · rintro s rfl
    obtain ⟨_, hs⟩ := optional_eq_some hscope
    exact bounded_scope hs
  · rintro q rfl
    obtain ⟨_, hq⟩ := optional_eq_some hread
    obtain ⟨hstart, hstop, hdigest⟩ := hspec.read q rfl
    refine ⟨length_path_of_read hq, hstart, hstop, fun d hd => ?_⟩
    have hdigits := hdigest d hd
    rw [isDigest, Bool.and_eq_true, beq_iff_eq] at hdigits
    exact Nat.le_of_eq hdigits.1

theorem digits_le {n : Nat} (h : n ≤ MAX_SAFE_INTEGER) : digits n ≤ 16 :=
  (Nat.length_toDigits_le_iff (by decide) (by decide)).2 (Nat.lt_of_le_of_lt h (by decide))

theorem stringsBytes_le {most : Nat} {items : List JsString} (h : ∀ s ∈ items, s.length ≤ most) :
    stringsBytes items ≤ 2 + items.length * (6 * most + 3) := by
  have hfold : ∀ items : List JsString, (∀ s ∈ items, s.length ≤ most) →
      items.foldr (fun s n => Json.escapedBytes s + 3 + n) 0 ≤ items.length * (6 * most + 3) := by
    intro items hitems
    induction items with
    | nil => exact Nat.zero_le _
    | cons s items ih =>
      have hs := Json.escapedBytes_le s
      have hlen := hitems s List.mem_cons_self
      have hrest := ih fun t ht => hitems t (List.mem_cons_of_mem _ ht)
      rw [List.foldr_cons, List.length_cons, Nat.add_mul]
      omega
  cases items with
  | nil => exact Nat.le_add_right _ _
  | cons s items =>
    have hle := hfold (s :: items) h
    rw [stringsBytes]
    omega

theorem groupsBytes_le {groups : List (List JsString)} (hcount : groups.length ≤ 2)
    (h : ∀ g ∈ groups, g.length ≤ 64 ∧ ∀ p ∈ g, p.length ≤ 1024) : groupsBytes groups ≤ 800000 := by
  have hgroup : ∀ g ∈ groups, stringsBytes g ≤ 393500 := by
    intro g hg
    obtain ⟨hlen, hitems⟩ := h g hg
    have hbytes := stringsBytes_le hitems
    omega
  match groups, hcount, hgroup with
  | [], _, _ => decide
  | [g], _, hgroup =>
    have hg := hgroup g List.mem_cons_self
    rw [groupsBytes]
    simp only [List.foldr_cons, List.foldr_nil]
    omega
  | [g, g'], _, hgroup =>
    have hg := hgroup g List.mem_cons_self
    have hg' := hgroup g' (List.mem_cons_of_mem _ List.mem_cons_self)
    rw [groupsBytes]
    simp only [List.foldr_cons, List.foldr_nil]
    omega
  | _ :: _ :: _ :: _, hcount, _ => exact absurd hcount (by simp)

theorem boolBytes_le (b : Bool) : boolBytes b ≤ 5 := by
  cases b <;> decide

/-- **The length of a request fits its header**, also where it is more than the worker takes. -/
theorem length_requestBody_lt {r : WorkerRequest} (h : Bounded r) {n : Nat} (hn : n ≤ r.deadlineMs) :
    (requestBody r n).length < 4294967296 := by
  obtain ⟨hmatches, hfile, hresponse, hdeadline, hentries, hdepth⟩ := h.limits
  have hpattern := Json.escapedBytes_le r.pattern
  have hid := Json.escapedBytes_le r.id
  have hp := h.pattern
  have hi := h.id
  have hkind : kindBytes r.kind ≤ 9 := by
    cases r.kind <;> decide
  have hscope : optionBytes (fun s => 9 + scopeBytes s) r.scope ≤ 1600000 := by
    cases hs : r.scope with
    | none => exact Nat.zero_le _
    | some s =>
      obtain ⟨hgroups, hexclude, hgroup, hpatterns⟩ := h.scope s hs
      have hg := groupsBytes_le hgroups hgroup
      have he := stringsBytes_le hpatterns
      have hh := boolBytes_le s.hidden
      have hr := boolBytes_le s.respectIgnore
      show 9 + scopeBytes s ≤ _
      rw [scopeBytes]
      omega
  have hvalidate : optionBytes (fun b => 21 + boolBytes b) r.validateScopeOnly ≤ 26 := by
    cases r.validateScopeOnly with
    | none => exact Nat.zero_le _
    | some b => exact Nat.add_le_add_left (boolBytes_le b) 21
  have hread : optionBytes (fun read => 8 + readBytes read) r.read ≤ 30000 := by
    cases hq : r.read with
    | none => exact Nat.zero_le _
    | some q =>
      obtain ⟨hpath, hstart, hstop, hdigest⟩ := h.read q hq
      have hpathBytes := Json.escapedBytes_le q.path
      have hstarts := digits_le hstart
      have hstops := digits_le hstop
      have hdigestBytes : optionBytes (fun digest => 24 + Json.escapedBytes digest) q.expectedFileSha256
          ≤ 408 := by
        cases hd : q.expectedFileSha256 with
        | none => exact Nat.zero_le _
        | some d =>
          have hlen := hdigest d hd
          have hbytes := Json.escapedBytes_le d
          show 24 + Json.escapedBytes d ≤ _
          omega
      show 8 + readBytes q ≤ _
      rw [readBytes, rangeBytes]
      omega
  have h₁ := digits_le hmatches
  have h₂ := digits_le hfile
  have h₃ := digits_le hresponse
  have h₄ := digits_le (hn.trans hdeadline)
  have h₅ := digits_le hentries
  have h₆ := digits_le hdepth
  have hcase := boolBytes_le r.caseSensitive
  rw [length_requestBody, requestBytes]
  omega

end Sizes

/-! ## §2 — the system. -/

/-- A worker process and its two pipes. -/
structure Peer (φ : Type) where
  /-- The root it has opened, with its `fstat`, once it has written its hello. -/
  home : Option (φ × Stat) := none
  /-- It reads and writes no more. -/
  ended : Bool := false
  /-- How many bytes of its input it has read. -/
  consumed : Nat := 0
  /-- The bodies it has written, oldest first. -/
  written : List Bytes := []
  /-- What it has written and the client has not been handed. -/
  pipe : Bytes := []

/-- A client and the processes it has started. -/
structure Together (φ : Type) where
  machine : Machine
  peers : ChildId → Peer φ

/-- Everything that was ever written to a child. -/
def stdin (c : ChildId) (trace : List Entry) : Bytes := (sentTo c trace).flatMap Prod.snd

/-- `${rootDev}:${rootIno}`, as the client reads it of a hello. -/
def identityOf (rootStat : Stat) : JsString :=
  encode (Worker.decimal rootStat.dev) ++ units ":" ++ encode (Worker.decimal rootStat.ino)

namespace Together

variable {φ : Type}

/-- What a process has not read of its input. -/
def unread (c : ChildId) (j : Together φ) : Bytes :=
  (stdin c j.machine.trace).drop (j.peers c).consumed

/-- One process has moved on. -/
def setPeer (c : ChildId) (p : Peer φ) (j : Together φ) : Together φ :=
  { j with peers := fun d => if d = c then p else j.peers d }

/-- The client and one of the processes. -/
def conversation (c : ChildId) (j : Together φ) : Conversation where
  machine := j.machine
  written := (j.peers c).written
  pipe := (j.peers c).pipe

/-- Before the first call. -/
def start (identity : Option JsString) : Together φ where
  machine := Machine.create identity
  peers := fun _ => {}

theorem setPeer_self (c : ChildId) (p : Peer φ) (j : Together φ) : (j.setPeer c p).peers c = p :=
  if_pos rfl

theorem setPeer_ne {c d : ChildId} (h : d ≠ c) (p : Peer φ) (j : Together φ) :
    (j.setPeer c p).peers d = j.peers d :=
  if_neg h

end Together

section Running

variable {σ φ : Type} (rt : Runtime) (engine : Worker.Engine) (os : Worker.Os σ φ)

/-- One step of the system. The system state `s` that a process finds is any: whatever happened to the files
since the last call is the operating system's. -/
inductive Step : Together φ → Together φ → Prop
  /-- A process that was started opens a root and writes its hello. -/
  | hello (j : Together φ) (c : ChildId) (pid : Nat) (root : φ) (rootStat : Stat) (s s' : σ) (frame : Bytes)
      (hspawned : c < j.machine.children) (hfresh : (j.peers c).home = none)
      (hpid : rt.pid c = some pid ∧ 0 < pid) (hsized : Worker.Sized pid rootStat)
      (hstat : os.fstat root s = (some rootStat, s'))
      (hframe : writeFrame (Worker.hello pid rootStat) = some frame) :
      Step j (j.setPeer c { j.peers c with
        home := some (root, rootStat)
        written := (j.peers c).written ++ [frame.drop 4]
        pipe := (j.peers c).pipe ++ frame })
  /-- A process goes once around its loop. -/
  | serve (j : Together φ) (c : ChildId) (root : φ) (rootStat : Stat) (s s' : σ) (frame rest : Bytes)
      (hhome : (j.peers c).home = some (root, rootStat)) (halive : (j.peers c).ended = false)
      (hround : Worker.round engine os root (j.unread c) s = .wrote frame rest s') :
      Step j (j.setPeer c { j.peers c with
        consumed := (j.peers c).consumed + ((j.unread c).length - rest.length)
        written := (j.peers c).written ++ [frame.drop 4]
        pipe := (j.peers c).pipe ++ frame })
  /-- A process returns, or is killed. -/
  | exit (j : Together φ) (c : ChildId) : Step j (j.setPeer c { j.peers c with ended := true })
  /-- The client is handed a piece of what a process wrote. -/
  | chunk (j : Together φ) (c : ChildId) (chunk rest : Bytes) (hchunk : chunk ≠ [])
      (hpipe : (j.peers c).pipe = chunk ++ rest) :
      Step j { (j.setPeer c { j.peers c with pipe := rest }) with
        machine := j.machine.step rt (.data c chunk) }
  /-- Anything else happens to the client. -/
  | event (j : Together φ) (e : Event) (hother : ∀ c chunk, e ≠ .data c chunk) :
      Step j { j with machine := j.machine.step rt e }

/-- The states of the system that are reached from a new worker object. -/
def Reached (identity : Option JsString) : Together φ → Prop :=
  Relation.ReflTransGen (Step rt engine os) (Together.start identity)

/-! ## §3 — a process and what it was sent. -/

/-- The body a process writes for a frame. -/
def Replied (root : φ) (frame : CallId × Bytes) (body : Bytes) : Prop :=
  ∃ asked s, frame.2 = frameOf asked ∧ body = toVec (Worker.answer engine os root asked s).1

/-- A process has written its hello and one reply to each of the frames it has read. -/
structure Hosted (c : ChildId) (trace : List Entry) (p : Peer φ) (root : φ) (rootStat : Stat)
    (pid : Nat) (replies : List Bytes) : Prop where
  process : rt.pid c = some pid ∧ 0 < pid ∧ Worker.Sized pid rootStat
  opened : ∃ s s', os.fstat root s = (some rootStat, s')
  written : p.written = toVec (Worker.hello pid rootStat) :: replies
  most : replies.length ≤ (sentTo c trace).length
  replied : List.Forall₂ (Replied engine os root) ((sentTo c trace).take replies.length) replies
  consumed : p.consumed = (((sentTo c trace).take replies.length).flatMap Prod.snd).length

/-- What holds of a process at any time. -/
def Serves (c : ChildId) (trace : List Entry) (p : Peer φ) : Prop :=
  match p.home with
  | none => p.written = [] ∧ p.consumed = 0
  | some (root, rootStat) => ∃ pid replies, Hosted rt engine os c trace p root rootStat pid replies

end Running

section Processes

variable {σ φ : Type} {rt : Runtime} {engine : Worker.Engine} {os : Worker.Os σ φ} {c : ChildId}
  {trace : List Entry} {p : Peer φ} {root : φ} {rootStat : Stat} {pid : Nat} {replies : List Bytes}

/-- What is written to a process later does not touch what it has answered. -/
theorem Hosted.later (h : Hosted rt engine os c trace p root rootStat pid replies) {later : List Entry}
    (hstarts : sentTo c trace <+: sentTo c later) {p' : Peer φ} (hwritten : p'.written = p.written)
    (hconsumed : p'.consumed = p.consumed) : Hosted rt engine os c later p' root rootStat pid replies := by
  obtain ⟨more, hmore⟩ := hstarts
  have htake : (sentTo c later).take replies.length = (sentTo c trace).take replies.length := by
    rw [← hmore, List.take_append_of_le_length h.most]
  constructor
  · exact h.process
  · exact h.opened
  · rw [hwritten, h.written]
  · rw [← hmore, List.length_append]
    exact h.most.trans (Nat.le_add_right _ _)
  · rw [htake]
    exact h.replied
  · rw [htake, hconsumed, h.consumed]

theorem Serves.later (h : Serves rt engine os c trace p) {later : List Entry}
    (hstarts : sentTo c trace <+: sentTo c later) {p' : Peer φ} (hhome : p'.home = p.home)
    (hwritten : p'.written = p.written) (hconsumed : p'.consumed = p.consumed) :
    Serves rt engine os c later p' := by
  rw [Serves] at h ⊢
  rw [hhome, hwritten, hconsumed]
  cases hp : p.home with
  | none =>
    rw [hp] at h
    exact h
  | some home =>
    obtain ⟨root, rootStat⟩ := home
    rw [hp] at h
    obtain ⟨pid, replies, h⟩ := h
    exact ⟨pid, replies, h.later hstarts hwritten hconsumed⟩

/-- Two frames at the head of the same input are one. -/
theorem frameOf_inj {a b r r' : Bytes} (ha : a.length < 4294967296) (hb : b.length < 4294967296)
    (h : frameOf a ++ r = frameOf b ++ r') : a = b ∧ r = r' := by
  have hlen : a.length = b.length := by
    rw [← readBe32_header ha (a ++ r), ← readBe32_header hb (b ++ r'), ← List.append_assoc,
      ← List.append_assoc]
    exact congrArg readBe32 h
  obtain ⟨hframes, hrest⟩ := List.append_inj h (by rw [length_frameOf, length_frameOf, hlen])
  exact ⟨(List.append_inj hframes (by rw [hlen])).2, hrest⟩

/-- What a process has not read are the frames behind those it has answered. -/
theorem Hosted.unread (h : Hosted rt engine os c trace p root rootStat pid replies) :
    (stdin c trace).drop p.consumed = ((sentTo c trace).drop replies.length).flatMap Prod.snd := by
  have hsplit : stdin c trace = ((sentTo c trace).take replies.length).flatMap Prod.snd ++
      ((sentTo c trace).drop replies.length).flatMap Prod.snd := by
    rw [stdin, ← List.flatMap_append, List.take_append_drop]
  rw [hsplit, h.consumed, List.drop_left]

/-- **A round of a process** reads the next frame that was written to it, and replies to its body. -/
theorem Hosted.round {m : Machine} {s s' : σ} {frame rest : Bytes} (hshort : engine.Short)
    (hos : os.Distinct) (hknown : Known rt m) (hseq : m.worker.sequence ≤ MAX_SAFE_INTEGER)
    (h : Hosted rt engine os c m.trace p root rootStat pid replies)
    (hround : Worker.round engine os root ((stdin c m.trace).drop p.consumed) s = .wrote frame rest s') :
    ∃ body, Sendable body ∧ frame = frameOf body ∧
      Hosted rt engine os c m.trace
        { p with
          consumed := p.consumed + (((stdin c m.trace).drop p.consumed).length - rest.length)
          written := p.written ++ [body] } root rootStat pid (replies ++ [body]) := by
  have hdrained : ¬ Worker.Drained ((stdin c m.trace).drop p.consumed) := by
    intro hdrained
    rw [Worker.round_drained hdrained] at hround
    cases hround
  obtain ⟨asked, rest', hasked, hinput⟩ := Worker.exists_frame hdrained
  rw [hinput, Worker.round_frame hshort hos hasked] at hround
  obtain ⟨rfl, rfl, rfl⟩ := Worker.Round.wrote.inj hround
  have hanswer : writeFrame (Worker.answer engine os root asked s).1
      = some (frameOf (toVec (Worker.answer engine os root asked s).1)) :=
    Worker.writeFrame_answer hshort hos asked s
  have hfits := writeFrame_eq_some hanswer
  -- the frame is the first that was not answered
  rw [h.unread] at hinput
  cases hnext : (sentTo c m.trace).drop replies.length with
  | nil =>
    rw [hnext] at hinput
    have hlen := length_frameOf asked
    have hnil : (frameOf asked ++ rest').length = 0 := by
      rw [← hinput]
      rfl
    rw [List.length_append] at hnil
    omega
  | cons next more =>
    obtain ⟨call, sent⟩ := next
    have hmem : (call, sent) ∈ sentTo c m.trace := by
      apply List.mem_of_mem_drop
      rw [hnext]
      exact List.mem_cons_self
    obtain ⟨request, n, haccepted, hn, rfl⟩ := hknown.wrote c call sent (mem_sentTo.1 hmem)
    obtain ⟨k, hk, input, haccept⟩ := hknown.accepted call request haccepted
    have hbounded := bounded_of_accepted (hk.trans hseq) haccept
    rw [hnext, List.flatMap_cons, requestFrame_eq] at hinput
    obtain ⟨rfl, rfl⟩ := frameOf_inj (length_requestBody_lt hbounded hn)
      (Nat.lt_of_le_of_lt hasked.2 (by decide)) hinput
    have hless : replies.length < (sentTo c m.trace).length := by
      apply Nat.lt_of_not_le
      intro hle
      rw [List.drop_of_length_le hle] at hnext
      cases hnext
    have hget : (sentTo c m.trace)[replies.length] = (call, requestFrame request n) := by
      have hdrop := List.drop_eq_getElem_cons hless
      rw [hnext] at hdrop
      exact (List.cons.inj hdrop).1.symm
    have htake : (sentTo c m.trace).take (replies.length + 1)
        = (sentTo c m.trace).take replies.length ++ [(call, requestFrame request n)] := by
      rw [List.take_add_one, List.getElem?_eq_getElem hless, hget]
      rfl
    refine ⟨_, hfits.1, rfl, h.process, h.opened, ?_, ?_, ?_, ?_⟩
    · show p.written ++ [_] = _
      rw [h.written]
      rfl
    · rw [List.length_append, List.length_singleton]
      exact hless
    · rw [List.length_append, List.length_singleton, htake]
      apply List.rel_append h.replied
      refine .cons ⟨requestBody request n, s, ?_, rfl⟩ .nil
      exact requestFrame_eq request n
    · show p.consumed + _ = _
      rw [List.length_append, List.length_singleton, htake, List.flatMap_append, List.length_append,
        ← h.consumed, h.unread, hnext, List.flatMap_cons, List.length_append, List.flatMap_singleton]
      show p.consumed + ((requestFrame request n).length + _ - _) = p.consumed + (requestFrame request n).length
      omega

end Processes

/-! ## §4 — a whole body. -/

/-- One thing is told, at most, and no search is in flight any more. -/
structure Tells (told : Entry) (m m' : Machine) : Prop where
  trace : ∃ added, m'.trace = added ++ m.trace ∧ ∀ e ∈ added, e.Still ∨ e = told
  ticks : m.ticks ≤ m'.ticks
  sequence : m'.worker.sequence = m.worker.sequence
  pending : m'.worker.pending = none

/-- A hello tells the identity of the root; a search that has waited for it is written, or dropped. -/
inductive Greets (rt : Runtime) (c : ChildId) (told : Entry) (m m' : Machine) : Prop
  | quiet (h : Tells told m m')
  | writes (m₁ : Machine) (p : Pending)
      (htrace : ∃ added, m₁.trace = added ++ m.trace ∧ ∀ e ∈ added, e.Still ∨ e = told)
      (hticks : m.ticks ≤ m₁.ticks) (hsequence : m₁.worker.sequence = m.worker.sequence)
      (hpending : m₁.worker.pending = m.worker.pending) (h : Writes rt m₁ m' p c)

section Bodies

variable {rt : Runtime} {c : ChildId} {m m' : Machine} {p : Pending} {told : Entry}

/-- Still entries, but for one. -/
theorem unsent_of_told {added : List Entry} (htold : told.Told) (h : ∀ e ∈ added, e.Still ∨ e = told) :
    ∀ e ∈ added, e.Unsent := by
  intro e he
  rcases h e he with hstill | rfl
  · exact hstill.1
  · exact htold.unsent

theorem Tells.adds (htold : told.Told) (h : Tells told m m') : Adds m m' where
  trace := by
    obtain ⟨added, htrace, hadded⟩ := h.trace
    exact ⟨added, htrace, unsent_of_told htold hadded⟩
  ticks := h.ticks
  sequence := h.sequence
  pending := .inl h.pending

/-- `fail` rejects the search in flight, and nothing else when no `open` waits. -/
theorem fail_tells (hp : m.worker.pending = some p) (hopening : m.worker.opening = none)
    (code : WorkerErrorCode) : Tells (.rejected p.call code) m (m.fail code) where
  trace := by
    have hopen : (m.dropChild.rejectOpening code) = m.dropChild := by
      rw [Machine.rejectOpening, Machine.dropChild_worker]
      simp only [hopening]
    have hpend : (m.dropChild.rejectPending code).trace = .rejected p.call code :: m.dropChild.trace := by
      rw [Machine.rejectPending, Machine.dropChild_worker]
      simp only [hp]
      rfl
    have hdrop : ∃ added, m.dropChild.trace = added ++ m.trace ∧ ∀ e ∈ added, e.Still := by
      rw [Machine.dropChild]
      split
      · exact ⟨[], rfl, List.forall_mem_nil _⟩
      · rename_i d _
        rw [Machine.retire]
        split
        · exact ⟨[], rfl, List.forall_mem_nil _⟩
        · exact ⟨[.killed d], rfl, List.forall_mem_singleton.2 ⟨trivial, id⟩⟩
    obtain ⟨added, htrace, hadded⟩ := hdrop
    refine ⟨.rejected p.call code :: added, ?_, fun e he => ?_⟩
    · rw [Machine.fail, hopen, hpend, htrace]
      rfl
    · rcases List.mem_cons.1 he with rfl | he
      · exact .inr rfl
      · exact .inl (hadded e he)
  ticks := Nat.le_of_eq (Calms.ticks_fail m code).symm
  sequence := by rw [Machine.fail_worker]
  pending := by rw [Machine.fail_worker]

/-- A calm failure behind still entries, and one thing that is told. -/
theorem Tells.failed {m₁ : Machine} (htrace : ∃ added, m₁.trace = added ++ m.trace ∧
      ∀ e ∈ added, e.Still ∨ e = told) (hticks : m.ticks ≤ m₁.ticks)
    (hsequence : m₁.worker.sequence = m.worker.sequence) {code : WorkerErrorCode}
    (hcode : code ≠ .workerProtocol) : Tells told m (m₁.fail code) where
  trace := by
    obtain ⟨added, htrace, hadded⟩ := htrace
    obtain ⟨later, hlater, hstill⟩ := (Calms.fail m₁ hcode).trace
    refine ⟨later ++ added, by rw [hlater, htrace, List.append_assoc], fun e he => ?_⟩
    rcases List.mem_append.1 he with he | he
    · exact .inl (hstill e he)
    · exact hadded e he
  ticks := hticks.trans (Nat.le_of_eq (Calms.ticks_fail m₁ code).symm)
  sequence := by rw [Machine.fail_worker, ← hsequence]
  pending := by rw [Machine.fail_worker]

/-- **A reply** resolves its search, or comes too late. -/
theorem take_resolves {v : Json} {response : WorkerResponse} (hreads : rt.parse (toVec v) = some v)
    (hready : m.worker.ready = true) (hp : m.worker.pending = some p)
    (hvalidate : validateWorkerResponse v p.request (toVec v).length = some response) :
    Tells (.resolved p.call response) m (m.take rt c (toVec v)) := by
  rw [Machine.take, hreads]
  simp only
  set emptied : Machine := { m with worker := { m.worker with input := [] } }
  have hdelivered : emptied.deliver rt c v (toVec v).length
      = (emptied.record (.delivered c v (toVec v).length)).respond rt v (toVec v).length := if_pos hready
  have hpending : (emptied.record (.delivered c v (toVec v).length)).worker.pending = some p := hp
  rw [hdelivered, Machine.respond, hpending]
  simp only [hvalidate]
  split
  · have hcode : WorkerErrorCode.deadline ≠ .workerProtocol := by decide
    have hstill : ∀ e ∈ [Entry.delivered c v (toVec v).length], e.Still ∨ e = .resolved p.call response :=
      List.forall_mem_singleton.2 (.inl ⟨trivial, id⟩)
    have htrace : (emptied.record (.delivered c v (toVec v).length)).tick.trace
        = [.delivered c v (toVec v).length] ++ m.trace := rfl
    exact Tells.failed ⟨_, htrace, hstill⟩ (Nat.le_succ _) rfl hcode
  · refine ⟨⟨[.resolved p.call response, .delivered c v (toVec v).length], rfl, fun e he => ?_⟩,
      Nat.le_succ _, rfl, rfl⟩
    rcases List.mem_cons.1 he with rfl | he
    · exact .inr rfl
    · rw [List.mem_singleton.1 he]
      exact .inl ⟨trivial, id⟩

/-- A message that does not pass the validation breaks the protocol. -/
theorem take_breaks {v : Json} (hreads : rt.parse (toVec v) = some v) (hready : m.worker.ready = true)
    (hp : m.worker.pending = some p) (hopening : m.worker.opening = none)
    (hvalidate : validateWorkerResponse v p.request (toVec v).length = none) :
    Tells (.rejected p.call .workerProtocol) m (m.take rt c (toVec v)) := by
  rw [Machine.take, hreads]
  simp only
  set emptied : Machine := { m with worker := { m.worker with input := [] } }
  have hdelivered : emptied.deliver rt c v (toVec v).length
      = (emptied.record (.delivered c v (toVec v).length)).respond rt v (toVec v).length := if_pos hready
  have hpending : (emptied.record (.delivered c v (toVec v).length)).worker.pending = some p := hp
  have hopen : (emptied.record (.delivered c v (toVec v).length)).worker.opening = none := hopening
  rw [hdelivered, Machine.respond, hpending]
  simp only [hvalidate]
  obtain ⟨⟨added, htrace, hadded⟩, hticks, hsequence, hnone⟩ := fail_tells hpending hopen .workerProtocol
  refine ⟨⟨added ++ [.delivered c v (toVec v).length], ?_, fun e he => ?_⟩, hticks, hsequence, hnone⟩
  · rw [htrace, List.append_assoc]
    rfl
  · rcases List.mem_append.1 he with he | he
    · exact hadded e he
    · rw [List.mem_singleton.1 he]
      exact .inl ⟨trivial, id⟩

theorem isDecimal_decimal (n : Nat) : isDecimal (encode (Worker.decimal n)) = true := by
  have hdigits : ∀ d ∈ Worker.decimal n, 0x30 ≤ d.toNat ∧ d.toNat ≤ 0x39 := fun d hd =>
    Char.isDigit_iff_toNat.1 (Nat.isDigit_of_mem_toDigits (by decide) (by decide) hd)
  have hunits : encode (Worker.decimal n) = (Worker.decimal n).map unit := by
    rw [encode, List.map_eq_flatMap]
    exact List.flatMap_congr fun d hd => encodeChar_self (by have := hdigits d hd; omega)
  rw [isDecimal, hunits, Bool.and_eq_true, List.all_eq_true]
  constructor
  · have hne : Worker.decimal n ≠ [] := Nat.toDigits_ne_nil
    cases hd : Worker.decimal n with
    | nil => exact absurd hd hne
    | cons d ds => rfl
  · intro u hu
    obtain ⟨d, hd, rfl⟩ := List.mem_map.1 hu
    rw [toNat_unit (by have := hdigits d hd; omega)]
    simpa using hdigits d hd

/-- The client reads the hello that the worker writes. -/
theorem workerReadySchema_hello {pid : Nat} {rootStat : Stat} (hpos : 0 < pid)
    (hsized : Worker.Sized pid rootStat) :
    workerReadySchema (Worker.hello pid rootStat) = some
      { pid, rootDev := encode (Worker.decimal rootStat.dev)
        rootIno := encode (Worker.decimal rootStat.ino) } := by
  have hpid := hsized.pid
  have hsafe : (4294967296 : Nat) ≤ MAX_SAFE_INTEGER := by decide
  have hdecimal : ∀ n, (string (Worker.strJson (Worker.decimal n))).filter isDecimal
      = some (encode (Worker.decimal n)) := by
    intro n
    rw [string_strJson, Option.filter_some, if_pos (isDecimal_decimal n)]
  have hjson : Worker.hello pid rootStat = .obj (named [("v", .nat 1), ("status", .str (units "ready")),
      ("pid", .nat pid), ("matcher", .str (units "grep-regex-0.1.14")),
      ("rootDev", Worker.strJson (Worker.decimal rootStat.dev)),
      ("rootIno", Worker.strJson (Worker.decimal rootStat.ino))]) := by
    have hmatcher : encode Worker.MATCHER = units "grep-regex-0.1.14" := by decide +kernel
    rw [← hmatcher]
    rfl
  rw [hjson]
  refine some_bind (strictObject_named (by simp)) ?_
  refine some_bind (required_named (v := .nat 1) (by simp) (by simp) int_one) ?_
  refine some_bind (required_named (by simp) (by simp) (choice_units "ready")) ?_
  have hread : int 1 MAX_SAFE_INTEGER (.nat pid) = some pid := int_nat (by omega)
  refine some_bind (required_named (by simp) (by simp) hread) ?_
  refine some_bind (required_named (by simp) (by simp) (choice_units "grep-regex-0.1.14")) ?_
  refine some_bind (required_named (by simp) (by simp) (hdecimal rootStat.dev)) ?_
  exact some_bind (required_named (by simp) (by simp) (hdecimal rootStat.ino)) rfl

/-- **A hello** of the process whose pid the runtime knows. -/
theorem take_greets {pid : Nat} {rootStat : Stat}
    (hreads : rt.parse (toVec (Worker.hello pid rootStat)) = some (Worker.hello pid rootStat))
    (hpid : rt.pid c = some pid) (hpos : 0 < pid) (hsized : Worker.Sized pid rootStat)
    (hc : m.worker.child = some c) (hready : m.worker.ready = false) :
    Greets rt c (.greeted c (identityOf rootStat)) m (m.take rt c (toVec (Worker.hello pid rootStat))) := by
  rw [Machine.take, hreads]
  simp only
  set v := Worker.hello pid rootStat with hv
  set emptied : Machine := { m with worker := { m.worker with input := [] } }
  set greeted := (emptied.record (.delivered c v (toVec v).length)).record
    (.greeted c (identityOf rootStat)) with hgreeted
  have htrace : greeted.trace = [.greeted c (identityOf rootStat), .delivered c v (toVec v).length] ++ m.trace := rfl
  have htold : ∀ e ∈ [Entry.greeted c (identityOf rootStat), .delivered c v (toVec v).length],
      e.Still ∨ e = .greeted c (identityOf rootStat) := by
    intro e he
    rcases List.mem_cons.1 he with rfl | he
    · exact .inr rfl
    · rw [List.mem_singleton.1 he]
      exact .inl ⟨trivial, id⟩
  have hdelivered : emptied.deliver rt c v (toVec v).length
      = (emptied.record (.delivered c v (toVec v).length)).greet rt c v :=
    if_neg (by rw [Machine.record_worker]; exact Bool.eq_false_iff.1 hready)
  rw [hdelivered, Machine.greet, hv, workerReadySchema_hello hpos hsized]
  simp only
  rw [if_neg (not_not.2 hpid.symm)]
  show Greets rt c _ m (if greeted.worker.rootIdentity ≠ none ∧
    greeted.worker.rootIdentity ≠ some (identityOf rootStat) then (greeted.fail .rootChanged, false)
    else ((greeted.adopt (identityOf rootStat)).resolveOpening.send rt, true)).1
  split
  · have hcode : WorkerErrorCode.rootChanged ≠ .workerProtocol := by decide
    exact .quiet (Tells.failed ⟨_, htrace, htold⟩ (Nat.le_refl _) rfl hcode)
  · -- the promise of `open`, if there is one, is settled before the request is sent
    set opened := (greeted.adopt (identityOf rootStat)).resolveOpening with hopened
    have hopening : (∃ added, opened.trace = added ++ m.trace ∧
          ∀ e ∈ added, e.Still ∨ e = .greeted c (identityOf rootStat)) ∧
        m.ticks ≤ opened.ticks ∧ opened.worker.sequence = m.worker.sequence ∧
        opened.worker.pending = m.worker.pending ∧ opened.worker.child = m.worker.child := by
      rw [hopened, Machine.resolveOpening]
      split
      · exact ⟨⟨_, htrace, htold⟩, Nat.le_refl _, rfl, rfl, rfl⟩
      · rename_i call _
        refine ⟨⟨.opened call :: [.greeted c (identityOf rootStat), .delivered c v (toVec v).length], rfl, ?_⟩,
          Nat.le_refl _, rfl, rfl, rfl⟩
        exact List.forall_mem_cons.2 ⟨.inl ⟨trivial, id⟩, htold⟩
    obtain ⟨hadded, hticks, hsequence, hpending, hchild⟩ := hopening
    show Greets rt c _ m (opened.send rt)
    cases hp : m.worker.pending with
    | none =>
      have hsend : opened.send rt = opened := by
        rw [Machine.send, hpending, hp]
      rw [hsend]
      exact .quiet ⟨hadded, hticks, hsequence, hpending.trans hp⟩
    | some p =>
      rw [Machine.send, hpending, hp, hchild, hc]
      simp only
      split
      · have hcode : WorkerErrorCode.deadline ≠ .workerProtocol := by decide
        have htold' : ∃ added, opened.tick.trace = added ++ m.trace ∧
            ∀ e ∈ added, e.Still ∨ e = .greeted c (identityOf rootStat) := hadded
        exact .quiet (Tells.failed htold' (hticks.trans (Nat.le_succ _)) hsequence hcode)
      · rename_i hlate
        exact .writes opened p hadded hticks hsequence hpending
          ⟨hpending.trans hp, hchild.trans hc, Int.not_le.1 hlate, rfl⟩

/-- The reply to a body that is no request does not have the id of a request. -/
theorem validate_invalidReply {k : Nat} {request : WorkerRequest} (hid : request.id = requestId k)
    (size : Nat) : validateWorkerResponse invalidReply request size = none := by
  have hschema : workerResponseSchema invalidReply
      = some (.error (encode "invalid".toList) .invalidRequest) :=
    workerResponseSchema_failure rfl (by decide +kernel)
  have hne : encode "invalid".toList ≠ request.id := by
    intro h
    rw [hid] at h
    have hchars : "invalid".toList = "q-".toList ++ Nat.toDigits 10 k := encode_injective h
    have hheads : 'i' = 'q' := (List.cons.inj hchars).1
    exact absurd hheads (by decide)
  rw [validateWorkerResponse, hschema]
  simp only
  rw [if_pos]
  exact Bool.or_eq_true_iff.2 (.inl (decide_eq_true hne))

end Bodies

/-! ## §5 — the invariant of the system. -/

/-- What each side is taken to be: a clock that does not go back, a `JSON.parse` that reads what `serde_json`
writes, a matcher and a digest of the shapes they document, and directory streams with distinct names. -/
structure Working {σ φ : Type} (rt : Runtime) (engine : Worker.Engine) (os : Worker.Os σ φ) : Prop where
  steady : rt.Steady
  reads : ∀ v, rt.parse (toVec v) = some v
  regular : Regular engine
  distinct : os.Distinct

/-- A search was answered by the worker: its own request was written to a process, the process read it as that
request, and the response is what a search for it came to on the root the process had told the client of. -/
structure AnsweredBy {σ φ : Type} (engine : Worker.Engine) (os : Worker.Os σ φ) (trace : List Entry)
    (call : CallId) (response : WorkerResponse) (c : ChildId) (request : WorkerRequest) (n : Nat)
    (r : Worker.Request) (root : φ) (rootStat : Stat) (s : σ) : Prop where
  accepted : Entry.accepted call request ∈ trace
  wrote : Entry.wrote c call (requestFrame request n) ∈ trace
  decoded : fromSlice (requestBody request n) = some r
  same : SameRequest request n r
  opened : ∃ s₀ s₁, os.fstat root s₀ = (some rootStat, s₁)
  greeted : Entry.greeted c (identityOf rootStat) ∈ trace
  response : response = .ofOutcome request.id (Worker.search engine os root r ⟨s, []⟩).1

/-- The request of a search was written, and is none to the worker. -/
def NotCarried (trace : List Entry) (call : CallId) : Prop :=
  ∃ c request n, Entry.accepted call request ∈ trace ∧ Entry.wrote c call (requestFrame request n) ∈ trace ∧
    fromSlice (requestBody request n) = none

section Running

variable {σ φ : Type} (rt : Runtime) (engine : Worker.Engine) (os : Worker.Os σ φ)

/-- What is told is true. -/
def Truthful (trace : List Entry) (peers : ChildId → Peer φ) : Entry → Prop
  | .greeted c identity =>
      ∃ root rootStat, (peers c).home = some (root, rootStat) ∧ identity = identityOf rootStat
  | .resolved call response =>
      ∃ c request n r root rootStat s,
        AnsweredBy engine os trace call response c request n r root rootStat s
  | .rejected call _ => NotCarried trace call
  | _ => True

/-- **The invariant**: what the client knows, and what passes between it and each process. -/
structure Sound (j : Together φ) : Prop where
  known : Known rt j.machine
  latest : Latest j.machine
  lockStep : ∀ c, LockStep rt c (j.conversation c)
  serves : ∀ c, Serves rt engine os c j.machine.trace (j.peers c)
  told : ∀ e ∈ j.machine.trace, e.Told → Truthful engine os j.machine.trace j.peers e

end Running

section Invariant

variable {σ φ : Type} {rt : Runtime} {engine : Worker.Engine} {os : Worker.Os σ φ} {c : ChildId}
  {j j' : Together φ}

theorem AnsweredBy.later {trace added : List Entry} {call : CallId} {response : WorkerResponse}
    {request : WorkerRequest} {n : Nat} {r : Worker.Request} {root : φ} {rootStat : Stat} {s : σ}
    (h : AnsweredBy engine os trace call response c request n r root rootStat s) :
    AnsweredBy engine os (added ++ trace) call response c request n r root rootStat s where
  accepted := List.mem_append_right _ h.accepted
  wrote := List.mem_append_right _ h.wrote
  decoded := h.decoded
  same := h.same
  opened := h.opened
  greeted := List.mem_append_right _ h.greeted
  response := h.response

theorem Truthful.later {trace added : List Entry} {peers peers' : ChildId → Peer φ} {e : Entry}
    (h : Truthful engine os trace peers e)
    (hhome : ∀ c home, (peers c).home = some home → (peers' c).home = some home) :
    Truthful engine os (added ++ trace) peers' e := by
  cases e with
  | greeted c identity =>
    obtain ⟨root, rootStat, hroot, hidentity⟩ := h
    exact ⟨root, rootStat, hhome c _ hroot, hidentity⟩
  | resolved call response =>
    obtain ⟨c, request, n, r, root, rootStat, s, h⟩ := h
    exact ⟨c, request, n, r, root, rootStat, s, h.later⟩
  | rejected call code =>
    obtain ⟨c, request, n, haccepted, hwrote, hnone⟩ := h
    exact ⟨c, request, n, List.mem_append_right _ haccepted, List.mem_append_right _ hwrote, hnone⟩
  | _ => trivial

theorem sound_start (identity : Option JsString) :
    Sound rt engine os (Together.start identity : Together φ) where
  known := known_create rt identity
  latest := latest_idle (.inl rfl)
  lockStep c := lockStep_create rt c identity
  serves c := ⟨rfl, rfl⟩
  told e he := by cases he

/-- The client has moved on, and the processes are where they were. -/
theorem Sound.moved (h : Sound rt engine os j) (hknown : Known rt j'.machine) (hlatest : Latest j'.machine)
    (hlock : ∀ d, LockStep rt d (j'.conversation d))
    (hpeers : ∀ d, (j'.peers d).home = (j.peers d).home ∧ (j'.peers d).written = (j.peers d).written ∧
      (j'.peers d).consumed = (j.peers d).consumed)
    (htrace : ∃ added, j'.machine.trace = added ++ j.machine.trace ∧
      ∀ e ∈ added, e.Told → Truthful engine os j'.machine.trace j'.peers e) :
    Sound rt engine os j' where
  known := hknown
  latest := hlatest
  lockStep := hlock
  serves d := by
    obtain ⟨added, htrace, -⟩ := htrace
    obtain ⟨hhome, hwritten, hconsumed⟩ := hpeers d
    refine (h.serves d).later ?_ hhome hwritten hconsumed
    rw [htrace]
    exact sentTo_prefix d added j.machine.trace
  told e he htold := by
    obtain ⟨added, htrace, hnew⟩ := htrace
    rw [htrace] at he
    rcases List.mem_append.1 he with he | he
    · exact hnew e he htold
    · rw [htrace]
      refine (h.told e he htold).later fun d home hd => ?_
      rw [(hpeers d).1]
      exact hd

theorem Sound.event (hworking : Working rt engine os) (h : Sound rt engine os j) {e : Event}
    (hother : ∀ c chunk, e ≠ .data c chunk) :
    Sound rt engine os { j with machine := j.machine.step rt e } := by
  have hmoves := moves_step rt j.machine e hother
  obtain ⟨hknown, hlatest⟩ := hmoves.keeps hworking.steady h.known h.latest
  obtain ⟨added, htrace, hadded⟩ := hmoves.trace
  refine h.moved hknown hlatest (fun d => ?_) (fun d => ⟨rfl, rfl, rfl⟩)
    ⟨added, htrace, fun e he htold => absurd htold (hadded e he)⟩
  exact lockStep_talks (h.lockStep d) (.event _ e (hother d))

/-- A process writes a body, and the client stays where it is. -/
theorem Sound.writes (h : Sound rt engine os j) {p : Peer φ}
    (htalks : Talks rt c (j.conversation c) ((j.setPeer c p).conversation c))
    (hserves : Serves rt engine os c j.machine.trace p)
    (hhome : ∀ home, (j.peers c).home = some home → p.home = some home) :
    Sound rt engine os (j.setPeer c p) where
  known := h.known
  latest := h.latest
  lockStep d := by
    by_cases hd : d = c
    · subst hd
      exact lockStep_talks (h.lockStep d) htalks
    · have hsame : (j.setPeer c p).conversation d = j.conversation d := by
        rw [Together.conversation, Together.setPeer_ne hd]
        rfl
      rw [hsame]
      exact h.lockStep d
  serves d := by
    by_cases hd : d = c
    · subst hd
      rw [Together.setPeer_self]
      exact hserves
    · rw [Together.setPeer_ne hd]
      exact h.serves d
  told e he htold := by
    have hkept : ∀ d home, (j.peers d).home = some home → ((j.setPeer c p).peers d).home = some home := by
      intro d home hd
      by_cases hdc : d = c
      · subst hdc
        rw [Together.setPeer_self]
        exact hhome home hd
      · rw [Together.setPeer_ne hdc]
        exact hd
    rw [← List.nil_append (j.setPeer c p).machine.trace]
    exact (h.told e he htold).later hkept

/-- A hello, written. -/
theorem Sound.hello (h : Sound rt engine os j) {pid : Nat} {root : φ} {rootStat : Stat} {s s' : σ}
    {frame : Bytes} (hspawned : c < j.machine.children) (hfresh : (j.peers c).home = none)
    (hpid : rt.pid c = some pid ∧ 0 < pid) (hsized : Worker.Sized pid rootStat)
    (hstat : os.fstat root s = (some rootStat, s'))
    (hframe : writeFrame (Worker.hello pid rootStat) = some frame) :
    Sound rt engine os (j.setPeer c { j.peers c with
      home := some (root, rootStat)
      written := (j.peers c).written ++ [frame.drop 4]
      pipe := (j.peers c).pipe ++ frame }) := by
  obtain ⟨hsendable, rfl⟩ := writeFrame_eq_some hframe
  have hbody : (frameOf (toVec (Worker.hello pid rootStat))).drop 4 = toVec (Worker.hello pid rootStat) := rfl
  have hserves := h.serves c
  rw [Serves, hfresh] at hserves
  obtain ⟨hwritten, hconsumed⟩ := hserves
  rw [hbody, hwritten, List.nil_append]
  apply h.writes
  · have hconversation : (j.setPeer c { j.peers c with
          home := some (root, rootStat)
          written := [toVec (Worker.hello pid rootStat)]
          pipe := (j.peers c).pipe ++ frameOf (toVec (Worker.hello pid rootStat)) }).conversation c =
        { j.conversation c with
          written := [toVec (Worker.hello pid rootStat)]
          pipe := (j.conversation c).pipe ++ frameOf (toVec (Worker.hello pid rootStat)) } := by
      rw [Together.conversation, Together.setPeer_self]
      rfl
    rw [hconversation]
    exact .hello _ _ hspawned hwritten hsendable
  · refine ⟨pid, [], ⟨hpid.1, hpid.2, hsized⟩, ⟨s, s', hstat⟩, rfl, Nat.zero_le _, ?_, hconsumed⟩
    rw [List.length_nil, List.take_zero]
    exact .nil
  · intro home hhome
    rw [hfresh] at hhome
    cases hhome

/-- A reply, written. -/
theorem Sound.serve (hworking : Working rt engine os) (h : Sound rt engine os j)
    (hseq : j.machine.worker.sequence ≤ MAX_SAFE_INTEGER) {root : φ} {rootStat : Stat} {s s' : σ}
    {frame rest : Bytes} (hhome : (j.peers c).home = some (root, rootStat))
    (hround : Worker.round engine os root (j.unread c) s = .wrote frame rest s') :
    Sound rt engine os (j.setPeer c { j.peers c with
      consumed := (j.peers c).consumed + ((j.unread c).length - rest.length)
      written := (j.peers c).written ++ [frame.drop 4]
      pipe := (j.peers c).pipe ++ frame }) := by
  have hserves := h.serves c
  rw [Serves, hhome] at hserves
  obtain ⟨pid, replies, hhosted⟩ := hserves
  obtain ⟨body, hsendable, rfl, hlater⟩ :=
    hhosted.round hworking.regular.toShort hworking.distinct h.known hseq hround
  have hbody : (frameOf body).drop 4 = body := rfl
  rw [hbody]
  apply h.writes
  · have hconversation : (j.setPeer c { j.peers c with
          consumed := (j.peers c).consumed + ((j.unread c).length - rest.length)
          written := (j.peers c).written ++ [body]
          pipe := (j.peers c).pipe ++ frameOf body }).conversation c =
        { j.conversation c with
          written := (j.conversation c).written ++ [body]
          pipe := (j.conversation c).pipe ++ frameOf body } := by
      rw [Together.conversation, Together.setPeer_self]
      rfl
    rw [hconversation]
    have hgreeted : (j.conversation c).written ≠ [] := by
      show (j.peers c).written ≠ []
      rw [hhosted.written]
      exact List.cons_ne_nil _ _
    have hasked : (j.conversation c).written.length ≤ asked c j.machine.trace := by
      have hmost := hlater.most
      show (j.peers c).written.length ≤ _
      rw [length_sentTo, List.length_append, List.length_singleton] at hmost
      rw [hhosted.written, List.length_cons]
      exact hmost
    exact .reply _ _ hgreeted hasked hsendable
  · show Serves rt engine os c j.machine.trace _
    rw [Serves]
    simp only [hhome]
    exact ⟨pid, replies ++ [body], hlater.later (List.prefix_refl _) rfl rfl⟩
  · intro home hh
    exact hh

/-- A process that ends leaves what it has written. -/
theorem Sound.exit (h : Sound rt engine os j) (c : ChildId) :
    Sound rt engine os (j.setPeer c { j.peers c with ended := true }) := by
  have hpeers : ∀ d, ((j.setPeer c { j.peers c with ended := true }).peers d).home = (j.peers d).home ∧
      ((j.setPeer c { j.peers c with ended := true }).peers d).written = (j.peers d).written ∧
      ((j.setPeer c { j.peers c with ended := true }).peers d).consumed = (j.peers d).consumed ∧
      ((j.setPeer c { j.peers c with ended := true }).peers d).pipe = (j.peers d).pipe := by
    intro d
    by_cases hd : d = c
    · subst hd
      rw [Together.setPeer_self]
      exact ⟨rfl, rfl, rfl, rfl⟩
    · rw [Together.setPeer_ne hd]
      exact ⟨rfl, rfl, rfl, rfl⟩
  refine h.moved h.known h.latest (fun d => ?_) (fun d => ?_)
    ⟨[], rfl, fun e he => absurd he List.not_mem_nil⟩
  · obtain ⟨-, hwritten, -, hpipe⟩ := hpeers d
    have hsame : (j.setPeer c { j.peers c with ended := true }).conversation d = j.conversation d := by
      rw [Together.conversation, hwritten, hpipe]
      rfl
    rw [hsame]
    exact h.lockStep d
  · obtain ⟨hhome, hwritten, hconsumed, -⟩ := hpeers d
    exact ⟨hhome, hwritten, hconsumed⟩

/-- What the client makes of the body that completes a frame: the machine behind it, and what was told. -/
structure Taken (rt : Runtime) (told : Entry) (m m' : Machine) : Prop where
  known : Known rt m'
  latest : Latest m'
  trace : ∃ added, m'.trace = added ++ m.trace ∧ ∀ e ∈ added, e.Told → e = told

theorem Tells.taken {m m' : Machine} {told : Entry} (hsteady : rt.Steady) (hknown : Known rt m)
    (htold : told.Told) (h : Tells told m m') : Taken rt told m m' where
  known := hknown.adds hsteady (h.adds htold)
  latest := latest_idle (.inl h.pending)
  trace := by
    obtain ⟨added, htrace, hadded⟩ := h.trace
    exact ⟨added, htrace, fun e he ht => (hadded e he).resolve_left fun hstill => hstill.2 ht⟩

theorem Greets.taken {m m' : Machine} {told : Entry} (hsteady : rt.Steady) (hknown : Known rt m)
    (hinv : Inv m) (htold : told.Told) (h : Greets rt c told m m') : Taken rt told m m' := by
  cases h with
  | quiet h => exact h.taken hsteady hknown htold
  | writes m₁ p htrace hticks hsequence hpending hwrites =>
    obtain ⟨added, htrace, hadded⟩ := htrace
    have hadds : Adds m m₁ :=
      ⟨⟨added, htrace, unsent_of_told htold hadded⟩, hticks, hsequence, .inr hpending⟩
    have hknown₁ := hknown.adds hsteady hadds
    have haccepted : Entry.accepted p.call p.request ∈ m₁.trace :=
      hadds.mem (hinv.pending p (hpending ▸ hwrites.pending)).1
    refine ⟨hknown₁.write hsteady hwrites haccepted, latest_write hknown₁ hwrites, ?_⟩
    refine ⟨.wrote c p.call (requestFrame p.request (remainingMs p (rt.clock m₁.ticks)).toNat) :: added,
      ?_, fun e he ht => ?_⟩
    · rw [hwrites.after, Machine.record_trace, Machine.tick_trace, htrace]
      rfl
    · rcases List.mem_cons.1 he with rfl | he
      · exact ht.elim
      · exact (hadded e he).resolve_left fun hstill => hstill.2 ht

/-- What a process that has been heard answers last is what was written to it last. -/
theorem Sound.lastReply (h : Sound rt engine os j) {done : List Bytes} {body : Bytes}
    (hc : j.machine.worker.child = some c) (hready : j.machine.worker.ready = true)
    (hstep : InStep rt c (j.conversation c) done [body]) {root : φ} {rootStat : Stat} {pid : Nat}
    {replies : List Bytes}
    (hhosted : Hosted rt engine os c j.machine.trace (j.peers c) root rootStat pid replies) :
    ∃ p n s, j.machine.worker.pending = some p ∧ n ≤ p.request.deadlineMs ∧
      Entry.wrote c p.call (requestFrame p.request n) ∈ j.machine.trace ∧
      body = toVec (Worker.answer engine os root (requestBody p.request n) s).1 := by
  have hinv : Inv j.machine := (h.lockStep c).inv
  have hanswered : done.length + j.machine.inFlight = asked c j.machine.trace + 1 := hstep.answered hready
  have hwritten : done ++ [body] = toVec (Worker.hello pid rootStat) :: replies :=
    hstep.written.symm.trans hhosted.written
  have hmost := hhosted.most
  rw [length_sentTo] at hmost
  have hlen := congrArg List.length hwritten
  rw [List.length_append, List.length_singleton, List.length_cons] at hlen
  cases hp : j.machine.worker.pending with
  | none =>
    rw [Machine.inFlight, hp] at hanswered
    have hzero : done.length + 0 = asked c j.machine.trace + 1 := hanswered
    omega
  | some p =>
    rw [Machine.inFlight, hp] at hanswered
    have hone : done.length + 1 = asked c j.machine.trace + 1 := hanswered
    obtain ⟨before, n, hn, hsent⟩ := h.latest p c hp hready hc
    have hlength : replies.length = (sentTo c j.machine.trace).length := by
      rw [length_sentTo]
      omega
    -- the frame written last is the search's, and the body is the reply to it
    have hreplied := hhosted.replied
    rw [hlength, List.take_length, hsent, ← List.forall₂_reverse_iff, List.reverse_append] at hreplied
    have hends : body :: done.reverse = replies.reverse ++ [toVec (Worker.hello pid rootStat)] := by
      rw [← List.reverse_cons, ← hwritten, List.reverse_append]
      rfl
    cases hlast : replies.reverse with
    | nil =>
      rw [hlast] at hreplied
      cases hreplied
    | cons reply earlier =>
    rw [hlast] at hreplied hends
    obtain rfl : body = reply := (List.cons.inj hends).1
    obtain ⟨⟨asked, s, hasked, hreplyBody⟩, -⟩ := List.forall₂_cons.1 hreplied
    have hsame : requestBody p.request n = asked := by
      rw [requestFrame_eq] at hasked
      exact congrArg (List.drop 4) hasked
    refine ⟨p, n, s, rfl, hn, ?_, ?_⟩
    · apply mem_sentTo.1
      rw [hsent]
      exact List.mem_append_right _ List.mem_cons_self
    · rw [hreplyBody, hsame]

/-- **A body that completes a frame** of the current child. -/
theorem Sound.taken (hworking : Working rt engine os) (h : Sound rt engine os j)
    (hseq : j.machine.worker.sequence ≤ MAX_SAFE_INTEGER) (hc : j.machine.worker.child = some c)
    {done : List Bytes} {body : Bytes} (hstep : InStep rt c (j.conversation c) done [body]) :
    ∃ told, Taken rt told j.machine (j.machine.take rt c body) ∧
      Truthful engine os j.machine.trace j.peers told := by
  have hinv : Inv j.machine := (h.lockStep c).inv
  have hserves := h.serves c
  have hwritten : (j.peers c).written = done ++ [body] := hstep.written
  rw [Serves] at hserves
  cases hhome : (j.peers c).home with
  | none =>
    rw [hhome] at hserves
    rw [hserves.1] at hwritten
    exact absurd hwritten.symm (by simp)
  | some home =>
    obtain ⟨root, rootStat⟩ := home
    rw [hhome] at hserves
    obtain ⟨pid, replies, hhosted⟩ := hserves
    cases hready : j.machine.worker.ready with
    | false =>
      -- the first body of a process is its hello
      obtain ⟨hnil, -⟩ := hstep.waiting hready
      rw [hnil, hhosted.written] at hwritten
      obtain rfl : toVec (Worker.hello pid rootStat) = body := (List.cons.inj hwritten).1
      obtain ⟨hpid, hpos, hsized⟩ := hhosted.process
      have htold : (Entry.greeted c (identityOf rootStat)).Told := trivial
      have hgreets := take_greets (hworking.reads _) hpid hpos hsized hc hready
      exact ⟨.greeted c (identityOf rootStat), hgreets.taken hworking.steady h.known hinv htold,
        root, rootStat, hhome, rfl⟩
    | true =>
      obtain ⟨p, n, s, hp, hn, hwrote, hbody⟩ := h.lastReply hc hready hstep hhosted
      rw [hbody]
      obtain ⟨haccepted, -⟩ := hinv.pending p hp
      obtain ⟨k, hk, input, hinput⟩ := h.known.accepted p.call p.request haccepted
      have hspec := acceptInput_spec hinput
      have hopening : j.machine.worker.opening = none := hinv.opened hready
      cases hdecode : fromSlice (requestBody p.request n) with
      | none =>
        have hvalidate : validateWorkerResponse
            (Worker.answer engine os root (requestBody p.request n) s).1 p.request
            (toVec (Worker.answer engine os root (requestBody p.request n) s).1).length = none := by
          rw [Worker.answer, hdecode]
          exact validate_invalidReply hspec.id _
        have htold : (Entry.rejected p.call .workerProtocol).Told := rfl
        have hbreaks := take_breaks (c := c) (hworking.reads _) hready hp hopening hvalidate
        exact ⟨_, hbreaks.taken hworking.steady h.known htold, c, p.request, n, haccepted, hwrote, hdecode⟩
      | some r =>
        have hsame := sameRequest_of_decoded hspec hn hdecode
        have hvalidate : validateWorkerResponse
            (Worker.answer engine os root (requestBody p.request n) s).1 p.request
            (toVec (Worker.answer engine os root (requestBody p.request n) s).1).length
              = some (.ofOutcome p.request.id (Worker.search engine os root r ⟨s, []⟩).1) := by
          rw [Worker.answer, hdecode]
          exact validate_reply (hk.trans hseq) hspec (responseBytes_of_accepted hinput) hsame
            hworking.regular hworking.distinct rfl
        have htold : ∀ response, (Entry.resolved p.call response).Told := fun _ => trivial
        have hresolves := take_resolves (c := c) (hworking.reads _) hready hp hvalidate
        refine ⟨_, hresolves.taken hworking.steady h.known (htold _), c, p.request, n, r, root, rootStat, s,
          haccepted, hwrote, hdecode, hsame, hhosted.opened, ?_, rfl⟩
        obtain ⟨d, identity, hd, hgreeted⟩ := hinv.ready hready
        obtain rfl : c = d := Option.some.inj (hc.symm.trans hd)
        obtain ⟨root', rootStat', hhome', rfl⟩ := h.told _ hgreeted trivial
        obtain ⟨-, rfl⟩ := Prod.mk.inj (Option.some.inj (hhome.symm.trans hhome'))
        exact hgreeted

/-- A piece of what a process wrote, handed to the client. -/
theorem Sound.chunk (hworking : Working rt engine os) (h : Sound rt engine os j)
    (hseq : j.machine.worker.sequence ≤ MAX_SAFE_INTEGER) {chunk rest : Bytes} (hchunk : chunk ≠ [])
    (hpipe : (j.peers c).pipe = chunk ++ rest) :
    Sound rt engine os { (j.setPeer c { j.peers c with pipe := rest }) with
      machine := j.machine.step rt (.data c chunk) } := by
  set j' : Together φ := { (j.setPeer c { j.peers c with pipe := rest }) with
    machine := j.machine.step rt (.data c chunk) } with hj'
  have hpeers : ∀ d, (j'.peers d).home = (j.peers d).home ∧ (j'.peers d).written = (j.peers d).written ∧
      (j'.peers d).consumed = (j.peers d).consumed := by
    intro d
    show ((j.setPeer c _).peers d).home = _ ∧ ((j.setPeer c _).peers d).written = _ ∧
      ((j.setPeer c _).peers d).consumed = _
    by_cases hd : d = c
    · subst hd
      rw [Together.setPeer_self]
      exact ⟨rfl, rfl, rfl⟩
    · rw [Together.setPeer_ne hd]
      exact ⟨rfl, rfl, rfl⟩
  have hlock : ∀ d, LockStep rt d (j'.conversation d) := by
    intro d
    by_cases hd : d = c
    · subst hd
      have hconversation : j'.conversation d = { j.conversation d with
          machine := (j.conversation d).machine.step rt (.data d chunk), pipe := rest } := by
        show Conversation.mk _ ((j.setPeer d _).peers d).written ((j.setPeer d _).peers d).pipe = _
        rw [Together.setPeer_self]
        rfl
      rw [hconversation]
      exact lockStep_talks (h.lockStep d) (.chunk _ chunk rest hchunk hpipe)
    · have hconversation : j'.conversation d = { j.conversation d with
          machine := (j.conversation d).machine.step rt (.data c chunk) } := by
        show Conversation.mk _ ((j.setPeer c _).peers d).written ((j.setPeer c _).peers d).pipe = _
        rw [Together.setPeer_ne hd]
        rfl
      rw [hconversation]
      refine lockStep_talks (h.lockStep d) (.event _ _ fun chunk' heq => ?_)
      obtain ⟨rfl, -⟩ := Event.data.inj heq
      exact hd rfl
  have hcalm : ∀ m' : Machine, j'.machine = m' → Calms j.machine m' → Sound rt engine os j' := by
    rintro _ rfl hcalm
    obtain ⟨added, htrace, hadded⟩ := hcalm.trace
    exact h.moved (h.known.adds hworking.steady hcalm.adds) (h.latest.calm hcalm) hlock hpeers
      ⟨added, htrace, fun e he htold => absurd htold (hadded e he).2⟩
  by_cases hc : j.machine.worker.child = some c
  · obtain ⟨done, part, hstep⟩ := (h.lockStep c).current hc
    obtain ⟨body, rfl, -, hbuffered, hcomplete⟩ :=
      hstep.chunk hc (h.lockStep c).bodies hchunk hpipe
    by_cases hrest : rest = []
    · -- the last piece of a frame: its body is taken
      obtain ⟨told, htaken, htruthful⟩ := h.taken hworking hseq hc hstep
      have htake : j'.machine = j.machine.take rt c body := hcomplete hrest
      rw [← htake] at htaken
      obtain ⟨added, htrace, hadded⟩ := htaken.trace
      refine h.moved htaken.known htaken.latest hlock hpeers ⟨added, htrace, fun e he htold => ?_⟩
      obtain rfl := hadded e he htold
      rw [htrace]
      refine htruthful.later fun d home hd => ?_
      rw [(hpeers d).1]
      exact hd
    · refine hcalm (j.machine.buffer chunk) (hbuffered hrest) ?_
      exact .same [] rfl (List.forall_mem_nil _) ⟨rfl, rfl, rfl, rfl⟩ (Nat.le_refl _)
  · -- a child that is not current is not heard
    exact hcalm j.machine (if_pos hc) (.refl _)

end Invariant

/-! ## §6 — the run. -/

section Sequence

variable {rt : Runtime} {c : ChildId} {m : Machine}

theorem sequence_fail (m : Machine) (code : WorkerErrorCode) :
    (m.fail code).worker.sequence = m.worker.sequence := by
  rw [Machine.fail_worker]

theorem sequence_send (rt : Runtime) (m : Machine) : (m.send rt).worker.sequence = m.worker.sequence := by
  rcases send_writes rt m with hcalm | ⟨p, c, hwrites⟩
  · exact hcalm.sequence
  · rw [hwrites.after]
    rfl

theorem sequence_deliver (message : Json) (size : Nat) :
    (m.deliver rt c message size).1.worker.sequence = m.worker.sequence := by
  rw [Machine.deliver]
  split
  · rw [Machine.respond]
    split
    · exact sequence_fail _ _
    · split
      · exact sequence_fail _ _
      · split
        · exact sequence_fail _ _
        · rfl
  · rw [Machine.greet]
    split
    · exact sequence_fail _ _
    · split
      · exact sequence_fail _ _
      · simp only
        split
        · exact sequence_fail _ _
        · rw [sequence_send, Machine.resolveOpening]
          split <;> rfl

theorem sequence_drain (fuel : Nat) : ∀ m : Machine,
    (m.drain rt c fuel).worker.sequence = m.worker.sequence := by
  induction fuel with
  | zero => exact fun _ => rfl
  | succ fuel ih =>
    intro m
    rw [Machine.drain]
    split
    · rfl
    · simp only
      split
      · exact sequence_fail _ _
      · split
        · rfl
        · split
          · exact sequence_fail _ _
          · rename_i message _
            split
            · rw [ih, sequence_deliver]
            · exact sequence_deliver _ _

/-- Only a search that is accepted takes a number. -/
theorem sequence_onData (chunk : Bytes) :
    (m.onData rt c chunk).worker.sequence = m.worker.sequence := by
  rw [Machine.onData]
  split
  · rfl
  · split
    · exact sequence_fail _ _
    · exact sequence_drain _ _

end Sequence

section Reaching

variable {σ φ : Type} {rt : Runtime} {engine : Worker.Engine} {os : Worker.Os σ φ} {j j' : Together φ}

theorem Step.sequence_le (h : Step rt engine os j j') :
    j.machine.worker.sequence ≤ j'.machine.worker.sequence := by
  cases h with
  | chunk c chunk rest hchunk hpipe => exact Nat.le_of_eq (sequence_onData chunk).symm
  | event e hother => exact (moves_step rt j.machine e hother).sequence_le
  | _ => exact Nat.le_refl _

/-- **The step lemma.** -/
theorem Sound.step (hworking : Working rt engine os) (h : Sound rt engine os j)
    (hseq : j.machine.worker.sequence ≤ MAX_SAFE_INTEGER) (hstep : Step rt engine os j j') :
    Sound rt engine os j' := by
  cases hstep with
  | hello c pid root rootStat s s' frame hspawned hfresh hpid hsized hstat hframe =>
    exact h.hello hspawned hfresh hpid hsized hstat hframe
  | serve c root rootStat s s' frame rest hhome halive hround => exact h.serve hworking hseq hhome hround
  | exit c => exact h.exit c
  | chunk c chunk rest hchunk hpipe => exact h.chunk hworking hseq hchunk hpipe
  | event e hother => exact h.event hworking hother

/-- **The run lemma**: as long as the sequence number is an exact integer. -/
theorem sound_of_reached (hworking : Working rt engine os) {identity : Option JsString}
    (h : Reached rt engine os identity j) (hseq : j.machine.worker.sequence ≤ MAX_SAFE_INTEGER) :
    Sound rt engine os j := by
  induction h with
  | refl => exact sound_start identity
  | tail _ hstep ih =>
    have hbefore := hstep.sequence_le.trans hseq
    exact (ih hbefore).step hworking hbefore hstep

/-- What a client and its processes come to. -/
structure Faithful (rt : Runtime) (engine : Worker.Engine) (os : Worker.Os σ φ) (j : Together φ) : Prop where
  /-- A search resolves with what the worker's own search came to. -/
  resolved : ∀ call response, Entry.resolved call response ∈ j.machine.trace →
    ∃ c request n r root rootStat s,
      AnsweredBy engine os j.machine.trace call response c request n r root rootStat s
  /-- A search is rejected for a breach of the protocol only if its own request could not be carried. -/
  rejected : ∀ call, Entry.rejected call .workerProtocol ∈ j.machine.trace →
    NotCarried j.machine.trace call
  /-- A process has written its hello and one reply to each frame it has read, and has read them in the order
  in which they were written to it. -/
  served : ∀ c, Serves rt engine os c j.machine.trace (j.peers c)

/-- **Client and worker fit together**, in every interleaving: whatever is asked of the client and in
whatever order its events arrive, in whatever pieces the output of the processes reaches it, however often
they die and are started again, and whatever happens to the files meanwhile. -/
theorem faithful_reached (hworking : Working rt engine os) {identity : Option JsString}
    (h : Reached rt engine os identity j) (hseq : j.machine.worker.sequence ≤ MAX_SAFE_INTEGER) :
    Faithful rt engine os j where
  resolved _ _ hmem := (sound_of_reached hworking h hseq).told _ hmem trivial
  rejected _ hmem := (sound_of_reached hworking h hseq).told _ hmem rfl
  served := (sound_of_reached hworking h hseq).serves

end Reaching

/-! A run in which a search is answered. -/

/-- Something but a piece of output happens to the client. -/
def Together.meet {φ : Type} (rt : Runtime) (e : Event) (j : Together φ) : Together φ :=
  { j with machine := j.machine.step rt e }

/-- The whole of what a process has written is handed to the client. -/
def Together.hand {φ : Type} (rt : Runtime) (c : ChildId) (j : Together φ) : Together φ :=
  { (j.setPeer c { j.peers c with pipe := [] }) with
    machine := j.machine.step rt (.data c (j.peers c).pipe) }

/-- A process goes around its loop, if there is a frame for it. -/
def Together.turn {σ φ : Type} (engine : Worker.Engine) (os : Worker.Os σ φ) (c : ChildId) (root : φ) (s : σ)
    (j : Together φ) : Together φ :=
  match Worker.round engine os root (j.unread c) s with
  | .ends _ => j
  | .wrote frame rest _ =>
      j.setPeer c { j.peers c with
        consumed := (j.peers c).consumed + ((j.unread c).length - rest.length)
        written := (j.peers c).written ++ [frame.drop 4]
        pipe := (j.peers c).pipe ++ frame }

section Sample

variable {σ φ : Type} {rt : Runtime} {engine : Worker.Engine} {os : Worker.Os σ φ} {j : Together φ}
  {identity : Option JsString} {c : ChildId}

theorem Reached.meet (h : Reached rt engine os identity j) {e : Event}
    (hother : ∀ c chunk, e ≠ .data c chunk) : Reached rt engine os identity (j.meet rt e) :=
  h.tail (.event j e hother)

theorem Reached.hand (h : Reached rt engine os identity j) (hpipe : (j.peers c).pipe.isEmpty = false) :
    Reached rt engine os identity (j.hand rt c) := by
  refine h.tail (.chunk j c _ [] ?_ (List.append_nil _).symm)
  intro hnil
  rw [hnil] at hpipe
  cases hpipe

theorem Reached.turn (h : Reached rt engine os identity j) {root : φ} {rootStat : Stat} (s : σ)
    (hhome : (j.peers c).home = some (root, rootStat)) (halive : (j.peers c).ended = false) :
    Reached rt engine os identity (j.turn engine os c root s) := by
  rw [Together.turn]
  split
  · exact h
  · rename_i frame rest s' hround
    exact h.tail (.serve j c root rootStat s s' frame rest hhome halive hround)

theorem Together.home_hand : ((j.hand rt c).peers c).home = (j.peers c).home := by
  show ((j.setPeer c _).peers c).home = _
  rw [setPeer_self]

theorem Together.ended_hand : ((j.hand rt c).peers c).ended = (j.peers c).ended := by
  show ((j.setPeer c _).peers c).ended = _
  rw [setPeer_self]

theorem Together.peers_meet {e : Event} : (j.meet rt e).peers = j.peers := rfl

end Sample

theorem working_sample : Working sampleRuntime Worker.Engine.plain oneStream where
  steady _ _ _ := Int.le_refl 0
  reads v := by
    show (Utf8.decode (toVec v)).bind Json.parse = some v
    rw [toVec, Utf8.decode_encode]
    exact Json.parse_print v
  regular := regular_plain
  distinct := Worker.distinct_oneStream

/-- What the process of the sample says first. -/
def sampleHelloFrame : Bytes := frameOf (toVec (Worker.hello 7 Worker.oneFile.stat))

/-- `open()` starts a process, which opens the directory and writes its hello. -/
def sampleOpened : Together Worker.Node :=
  ((Together.start none).meet sampleRuntime .openRoot).setPeer 0
    { home := some (Worker.oneFile, Worker.oneFile.stat)
      written := [sampleHelloFrame.drop 4]
      pipe := sampleHelloFrame }

/-- A search for `a` is asked of the client, which has taken the hello. -/
def sampleSent : Together Worker.Node :=
  (sampleOpened.hand sampleRuntime 0).meet sampleRuntime (.search [(units "pattern", .str (units "a"))] none)

/-- The process has replied, and the client has taken the reply. -/
def sampleAnswered : Together Worker.Node :=
  (sampleSent.turn Worker.Engine.plain oneStream 0 Worker.oneFile 0).hand sampleRuntime 0

theorem home_sampleSent : (sampleSent.peers 0).home = some (Worker.oneFile, Worker.oneFile.stat) := by
  rw [sampleSent, Together.peers_meet, Together.home_hand, sampleOpened, Together.setPeer_self]

theorem ended_sampleSent : (sampleSent.peers 0).ended = false := by
  rw [sampleSent, Together.peers_meet, Together.ended_hand, sampleOpened, Together.setPeer_self]

theorem reached_sampleOpened : Reached sampleRuntime Worker.Engine.plain oneStream none sampleOpened := by
  have hsized : Worker.Sized 7 Worker.oneFile.stat := ⟨by decide, by decide, by decide⟩
  have hasked : Reached sampleRuntime Worker.Engine.plain oneStream none
      ((Together.start none).meet sampleRuntime .openRoot) :=
    Reached.meet .refl (fun _ _ h => by cases h)
  have hspawned : 0 < ((Together.start none : Together Worker.Node).meet sampleRuntime .openRoot).machine.children := by
    decide +kernel
  exact hasked.tail (.hello _ 0 7 Worker.oneFile Worker.oneFile.stat 0 0 _ hspawned rfl
    ⟨rfl, by decide⟩ hsized rfl (Worker.writeFrame_hello hsized))

theorem reached_sampleAnswered :
    Reached sampleRuntime Worker.Engine.plain oneStream none sampleAnswered := by
  have hpipe : (sampleOpened.peers 0).pipe.isEmpty = false := by decide +kernel
  have hsent : Reached sampleRuntime Worker.Engine.plain oneStream none sampleSent := by
    rw [sampleSent]
    exact (reached_sampleOpened.hand hpipe).meet (fun _ _ h => by cases h)
  have hreplied : ((sampleSent.turn Worker.Engine.plain oneStream 0 Worker.oneFile 0).peers 0).pipe.isEmpty
      = false := by
    decide +kernel
  rw [sampleAnswered]
  exact (hsent.turn 0 home_sampleSent ended_sampleSent).hand hreplied

/-- Whether an entry settles a search with a response. -/
def Entry.isResolved : Entry → Bool
  | .resolved _ _ => true
  | _ => false

/-- In the sample the search resolves, and the process has answered it. -/
theorem faithful_reached_sample : sampleAnswered.machine.trace.any Entry.isResolved = true ∧
    Faithful sampleRuntime Worker.Engine.plain oneStream sampleAnswered := by
  have hseq : sampleAnswered.machine.worker.sequence ≤ MAX_SAFE_INTEGER := by decide +kernel
  exact ⟨by decide +kernel, faithful_reached working_sample reached_sampleAnswered hseq⟩

end JevGrep.Client
