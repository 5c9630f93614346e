/-
# `JevGrep.Worker.Session` — the worker process from its hello to its end.

`run` of `native/worker/src/main.rs` behind the opening of the root: a hello with the identity of the root,
then one round after another until the input ends, is cut inside a frame or has a length outside the cap.
A round reads a frame, searches and writes the reply. Beside the loop over bytes stands `serve`, which is
handed whole bodies: the loop comes to it on every input (`run_serves`).

* §1 the hello; §2 the loop; §3 bodies; §4 what the loop comes to.
-/
import JevGrep.Client.Accept
import JevGrep.Client.Framing

namespace JevGrep.Worker

open JevGrep.Lib JevGrep.Lib.Schema
open JevGrep.Client (frameOf Sendable)

/-! ## §1 — the hello. -/

/-- `Ready`. -/
structure ReadyMessage where
  v : Nat
  pid : Nat
  matcher : Str
  rootDev : Nat
  rootIno : Nat

/-- `u64::to_string`. -/
def decimal (n : Nat) : Str := Nat.toDigits 10 n

/-- The hello as serde writes it. -/
def ReadyMessage.json (r : ReadyMessage) : Json :=
  structJson [("v", .nat r.v), ("status", .str (units "ready")), ("pid", .nat r.pid),
    ("matcher", strJson r.matcher), ("rootDev", strJson (decimal r.rootDev)),
    ("rootIno", strJson (decimal r.rootIno))]

/-- The hello of a process on a root with this `fstat`. -/
def hello (pid : Nat) (rootStat : Stat) : Json :=
  ReadyMessage.json { v := 1, pid, matcher := MATCHER, rootDev := rootStat.dev, rootIno := rootStat.ino }

/-- `st_dev` and `st_ino` are `u64` and a process id is a `u32`. -/
structure Sized (pid : Nat) (rootStat : Stat) : Prop where
  pid : pid < 4294967296
  dev : rootStat.dev < U64
  ino : rootStat.ino < U64

/-! ## §2 — the loop. -/

/-- How `run` returns; `main` turns an error into the exit code 2. -/
inductive Exit where
  | ok | error
  deriving DecidableEq, Repr

/-- One round: the loop ends, or a frame was written. -/
inductive Round (σ : Type) where
  | ends (exit : Exit)
  | wrote (frame rest : Bytes) (s : σ)

section Loop

variable {σ φ : Type} (engine : Engine) (os : Os σ φ) (root : φ)

/-- One round of the loop of `run`. -/
def round (input : Bytes) (s : σ) : Round σ :=
  match receive input with
  | .ended => .ends .ok
  | .broken => .ends .error
  | .invalid rest =>
      match writeFrame invalidReply with
      | none => .ends .error
      | some frame => .wrote frame rest s
  | .request r rest =>
      match writeFrame (reply r (search engine os root r ⟨s, []⟩).1) with
      | none => .ends .error
      | some frame => .wrote frame rest (search engine os root r ⟨s, []⟩).2.os

/-- `loop` in `run`. Every round that writes has read five bytes, so the length of the input is rounds
enough. -/
def rounds : Nat → Bytes → σ → List Bytes × Exit
  | 0, _, _ => ([], .error)
  | n + 1, input, s =>
      match round engine os root input s with
      | .ends exit => ([], exit)
      | .wrote frame rest s =>
          (frame :: (rounds n rest s).1, (rounds n rest s).2)

/-- `run` behind the opening of the root: the frames it writes, and how it returns. -/
def run (pid : Nat) (input : Bytes) (s : σ) : List Bytes × Exit :=
  match os.fstat root s with
  | (none, _) => ([], .error)
  | (some rootStat, s) =>
      match writeFrame (hello pid rootStat) with
      | none => ([], .error)
      | some frame =>
          (frame :: (rounds engine os root (input.length + 1) input s).1,
            (rounds engine os root (input.length + 1) input s).2)

/-! ## §3 — bodies. -/

/-- The reply to a body, and the system behind it. -/
def answer (body : Bytes) (s : σ) : Json × σ :=
  match fromSlice body with
  | none => (invalidReply, s)
  | some r => (reply r (search engine os root r ⟨s, []⟩).1, (search engine os root r ⟨s, []⟩).2.os)

/-- The replies to bodies that arrive one after another. -/
def serve : List Bytes → σ → List Json
  | [], _ => []
  | body :: bodies, s => (answer engine os root body s).1 :: serve bodies (answer engine os root body s).2

end Loop

/-- Input that holds no complete frame with a length within the cap at its head. -/
def Drained (tail : Bytes) : Prop := receive tail = .ended ∨ receive tail = .broken

section Serving

variable {σ φ : Type} {engine : Engine} {os : Os σ φ} {root : φ} {s : σ} {body tail : Bytes}

theorem fromBeBytes_toBeBytes {n : Nat} (h : n < 4294967296) (rest : Bytes) :
    ∃ a b c d, toBeBytes n ++ rest = a :: b :: c :: d :: rest ∧ fromBeBytes a b c d = n := by
  refine ⟨_, _, _, _, rfl, ?_⟩
  simp only [fromBeBytes, UInt8.toNat_ofNat']
  omega

theorem ofNat_eq_of_mod {x : UInt8} {n : Nat} (h : n % 256 = x.toNat) : UInt8.ofNat n = x := by
  apply UInt8.toNat.inj
  rw [UInt8.toNat_ofNat']
  exact h

/-- A header that was read is what a header of its number looks like. -/
theorem toBeBytes_fromBeBytes (a b c d : UInt8) : toBeBytes (fromBeBytes a b c d) = [a, b, c, d] := by
  obtain ⟨n, hn⟩ : ∃ n, n = fromBeBytes a b c d := ⟨_, rfl⟩
  rw [← hn]
  rw [fromBeBytes] at hn
  have ha := a.toNat_lt
  have hb := b.toNat_lt
  have hc := c.toNat_lt
  have hd := d.toNat_lt
  have h₁ : n / 16777216 % 256 = a.toNat := by omega
  have h₂ : n / 65536 % 256 % 256 = b.toNat := by omega
  have h₃ : n / 256 % 256 % 256 = c.toNat := by omega
  have h₄ : n % 256 % 256 = d.toNat := by omega
  rw [toBeBytes, ofNat_eq_of_mod h₁, ofNat_eq_of_mod h₂, ofNat_eq_of_mod h₃, ofNat_eq_of_mod h₄]

/-- What a round makes of a body. -/
def Received.ofBody (body rest : Bytes) : Received :=
  match fromSlice body with
  | none => .invalid rest
  | some r => .request r rest

theorem receive_header {a b c d : UInt8} {size : Nat} (hsize : fromBeBytes a b c d = size) (input : Bytes) :
    receive (a :: b :: c :: d :: input) =
      if size = 0 ∨ size > FRAME_CAP then .broken
      else if input.length < size then .broken
      else .ofBody (input.take size) (input.drop size) := by
  rw [receive]
  simp only [hsize]
  rfl

/-- The loop reads a frame as its body. -/
theorem receive_frameOf (h : Sendable body) (rest : Bytes) :
    receive (frameOf body ++ rest) = .ofBody body rest := by
  have hsmall : body.length < 4294967296 := Nat.lt_of_le_of_lt h.2 (by decide)
  have hpos := h.1
  have hmost := h.2
  obtain ⟨a, b, c, d, hbytes, hsize⟩ := fromBeBytes_toBeBytes hsmall (body ++ rest)
  rw [frameOf, List.append_assoc, hbytes, receive_header hsize, if_neg (by omega),
    if_neg (by rw [List.length_append]; omega), List.take_left, List.drop_left]

/-- The input has ended, in a clean way, only where nothing is left of it. -/
theorem receive_eq_ended : receive tail = .ended ↔ tail = [] := by
  constructor
  · intro h
    match tail, h with
    | [], _ => rfl
    | [_], h | [_, _], h | [_, _, _], h => cases h
    | a :: b :: c :: d :: input, h =>
      obtain ⟨size, hsize⟩ : ∃ size, fromBeBytes a b c d = size := ⟨_, rfl⟩
      rw [receive_header hsize] at h
      split at h
      · cases h
      · split at h
        · cases h
        · rw [Received.ofBody] at h
          split at h <;> cases h
  · rintro rfl
    rfl

/-- Input that is not drained begins with a frame. -/
theorem exists_frame {input : Bytes} (h : ¬ Drained input) :
    ∃ body rest, Sendable body ∧ input = frameOf body ++ rest := by
  match input, h with
  | [], h => exact absurd (.inl rfl) h
  | [_], h | [_, _], h | [_, _, _], h => exact absurd (.inr rfl) h
  | a :: b :: c :: d :: input, h =>
    have hheader := toBeBytes_fromBeBytes a b c d
    obtain ⟨size, hsize⟩ : ∃ size, fromBeBytes a b c d = size := ⟨_, rfl⟩
    rw [hsize] at hheader
    by_cases hcap : size = 0 ∨ size > FRAME_CAP
    · refine absurd (.inr ?_) h
      rw [receive_header hsize, if_pos hcap]
    · by_cases hshort : input.length < size
      · refine absurd (.inr ?_) h
        rw [receive_header hsize, if_neg hcap, if_pos hshort]
      · rw [not_or] at hcap
        have hlen : (input.take size).length = size := List.length_take_of_le (Nat.le_of_not_lt hshort)
        refine ⟨input.take size, input.drop size, ?_, ?_⟩
        · rw [Sendable, hlen]
          omega
        · rw [frameOf, hlen, List.append_assoc, List.take_append_drop, hheader]
          rfl

/-- **Every input is frames and what is left of it.** -/
theorem exists_bodies (input : Bytes) : ∃ bodies tail, (∀ body ∈ bodies, Sendable body) ∧ Drained tail ∧
    input = List.flatMap frameOf bodies ++ tail := by
  -- each frame takes bytes off the input
  induction hn : input.length using Nat.strong_induction_on generalizing input with
  | _ n ih =>
    by_cases hdrained : Drained input
    · exact ⟨[], input, List.forall_mem_nil _, hdrained, rfl⟩
    · obtain ⟨body, rest, hbody, rfl⟩ := exists_frame hdrained
      have hlen := Client.length_frameOf body
      rw [List.length_append] at hn
      obtain ⟨bodies, tail, hbodies, htail, hrest⟩ := ih rest.length (by omega) rest rfl
      refine ⟨body :: bodies, tail, ?_, htail, ?_⟩
      · exact List.forall_mem_cons.2 ⟨hbody, hbodies⟩
      · rw [hrest, List.flatMap_cons, List.append_assoc]

/-! ## §4 — what the loop comes to. -/

/-- On a system whose streams name no entry twice every body has a reply that fits a frame. -/
theorem writeFrame_answer (hshort : engine.Short) (hos : os.Distinct) (body : Bytes) (s : σ) :
    writeFrame (answer engine os root body s).1 = some (frameOf (toVec (answer engine os root body s).1)) := by
  have hframe : ∀ {v : Json}, Json.size v ≤ FRAME_CAP → writeFrame v = some (frameOf (toVec v)) := by
    intro v hv
    rw [writeFrame, length_toVec, if_neg (Nat.not_lt.2 hv), frameOf, length_toVec]
  apply hframe
  rw [answer]
  split
  · exact size_invalidReply.trans (by decide)
  · rename_i r _
    rcases h : search engine os root r ⟨s, []⟩ with ⟨code | success, w'⟩
    · exact (size_reply_error r code).trans (by decide)
    · obtain ⟨hsize, hcap⟩ := size_reply_ok hshort h fun read _ => (search_distinct hos h).metOnce read.path
      exact hsize.trans hcap

/-- A round with a frame at the head of its input answers the body. -/
theorem round_frame (hshort : engine.Short) (hos : os.Distinct) (hbody : Sendable body) (rest : Bytes) :
    round engine os root (frameOf body ++ rest) s =
      .wrote (frameOf (toVec (answer engine os root body s).1)) rest (answer engine os root body s).2 := by
  have hwritten : writeFrame (answer engine os root body s).1
      = some (frameOf (toVec (answer engine os root body s).1)) := writeFrame_answer hshort hos body s
  rw [round, receive_frameOf hbody, Received.ofBody]
  rw [answer] at hwritten ⊢
  cases hslice : fromSlice body with
  | none =>
    rw [hslice] at hwritten
    simp only [hwritten]
  | some r =>
    rw [hslice] at hwritten
    simp only [hwritten]

/-- A round with nothing to read ends the loop. -/
theorem round_drained (h : Drained tail) :
    round engine os root tail s = .ends (if tail = [] then .ok else .error) := by
  rw [round]
  rcases h with h | h
  · rw [h, if_pos (receive_eq_ended.1 h)]
  · have hne : tail ≠ [] := by
      rintro rfl
      cases h
    rw [h, if_neg hne]

/-- **The loop answers body by body.** -/
theorem rounds_eq_serve (hshort : engine.Short) (hos : os.Distinct) (htail : Drained tail) :
    ∀ (bodies : List Bytes) (n : Nat) (s : σ), (∀ body ∈ bodies, Sendable body) → bodies.length < n →
      rounds engine os root n (bodies.flatMap frameOf ++ tail) s =
        ((serve engine os root bodies s).map (fun v => frameOf (toVec v)),
          if tail = [] then .ok else .error)
  | [], n + 1, s, _, _ => by
      rw [List.flatMap_nil, List.nil_append, rounds, round_drained htail]
      rfl
  | body :: bodies, n + 1, s, hbodies, hn => by
      have hbody : Sendable body := hbodies body List.mem_cons_self
      have hlater := rounds_eq_serve hshort hos htail bodies n (answer engine os root body s).2
        (fun b hb => hbodies b (List.mem_cons_of_mem _ hb)) (Nat.lt_of_succ_lt_succ hn)
      rw [List.flatMap_cons, List.append_assoc, rounds, round_frame hshort hos hbody]
      simp only [hlater]
      rfl

theorem length_serve : ∀ (bodies : List Bytes) (s : σ),
    (serve engine os root bodies s).length = bodies.length
  | [], _ => rfl
  | body :: bodies, s => congrArg (· + 1) (length_serve bodies (answer engine os root body s).2)

/-- What has been answered stays answered. -/
theorem serve_append : ∀ (bodies more : List Bytes) (s : σ),
    serve engine os root bodies s <+: serve engine os root (bodies ++ more) s
  | [], more, s => List.nil_prefix
  | body :: bodies, more, s => by
      apply (List.prefix_cons_inj _).2
      exact serve_append bodies more (answer engine os root body s).2

theorem length_le_flatMap_frameOf : ∀ bodies : List Bytes,
    bodies.length ≤ (bodies.flatMap frameOf).length
  | [] => Nat.le_refl 0
  | body :: bodies => by
      have hlater := length_le_flatMap_frameOf bodies
      have hlen := Client.length_frameOf body
      rw [List.flatMap_cons, List.length_append, List.length_cons]
      omega

theorem size_decimal_le {n : Nat} (h : n < U64) : Json.size (strJson (decimal n)) ≤ 122 := by
  have hdigits : (decimal n).length ≤ 20 :=
    (Nat.length_toDigits_le_iff (by decide) (by decide)).2 (Nat.lt_trans h (by decide))
  have hsize := size_strJson_le (decimal n)
  omega

theorem size_hello_le {pid : Nat} {rootStat : Stat} (h : Sized pid rootStat) :
    Json.size (hello pid rootStat) ≤ FRAME_CAP := by
  have hdev := size_decimal_le h.dev
  have hino := size_decimal_le h.ino
  have hpid : Json.size (.nat pid) ≤ 10 := size_nat_le (Nat.lt_trans h.pid (by decide)) (by decide)
  have hone : Json.size (.nat 1) = 1 ∧ Json.size (.str (units "ready")) = 7 ∧
      Json.size (strJson MATCHER) = 19 := by decide +kernel
  have hnames : Json.escapedBytes (units "v") = 1 ∧ Json.escapedBytes (units "status") = 6 ∧
      Json.escapedBytes (units "pid") = 3 ∧ Json.escapedBytes (units "matcher") = 7 ∧
      Json.escapedBytes (units "rootDev") = 7 ∧ Json.escapedBytes (units "rootIno") = 7 := by
    decide +kernel
  have hcap : 1000 ≤ FRAME_CAP := by decide
  refine Nat.le_trans ?_ hcap
  rw [hello, ReadyMessage.json, size_structJson]
  simp only [fieldBytes, hone, hnames]
  omega

theorem writeFrame_hello {pid : Nat} {rootStat : Stat} (h : Sized pid rootStat) :
    writeFrame (hello pid rootStat) = some (frameOf (toVec (hello pid rootStat))) := by
  rw [writeFrame, length_toVec, if_neg (Nat.not_lt.2 (size_hello_le h)), frameOf, length_toVec]

/-- What a process writes whose input is these frames and a drained tail. -/
theorem run_of_bodies (hshort : engine.Short) (hos : os.Distinct) {pid : Nat} {rootStat : Stat} {s' : σ}
    (hstat : os.fstat root s = (some rootStat, s')) (hsized : Sized pid rootStat) {bodies : List Bytes}
    (hbodies : ∀ body ∈ bodies, Sendable body) (htail : Drained tail) :
    run engine os root pid (bodies.flatMap frameOf ++ tail) s =
      ((hello pid rootStat :: serve engine os root bodies s').map (fun v => frameOf (toVec v)),
        if tail = [] then .ok else .error) := by
  have hlen : bodies.length < (bodies.flatMap frameOf ++ tail).length + 1 := by
    have hle := length_le_flatMap_frameOf bodies
    rw [List.length_append]
    omega
  rw [run, hstat]
  simp only [writeFrame_hello hsized]
  rw [rounds_eq_serve hshort hos htail bodies _ s' hbodies hlen]
  rfl

/-- **A session is its bodies, answered in turn.** Whatever arrives on its input, a process writes its hello
and one reply to every whole frame in front of the first that is cut or has a length outside the cap, each in
the system that the searches before it have left; it returns without an error exactly where the input ends
between two frames; and what it has written is not changed by what arrives later. -/
theorem run_serves (hshort : engine.Short) (hos : os.Distinct) {pid : Nat} {rootStat : Stat} {s' : σ}
    (hstat : os.fstat root s = (some rootStat, s')) (hsized : Sized pid rootStat) (input : Bytes) :
    (∃ bodies tail, (∀ body ∈ bodies, Sendable body) ∧ Drained tail ∧
      input = bodies.flatMap frameOf ++ tail ∧
      run engine os root pid input s =
        ((hello pid rootStat :: serve engine os root bodies s').map (fun v => frameOf (toVec v)),
          if tail = [] then .ok else .error)) ∧
    ∀ more, (run engine os root pid input s).1 <+: (run engine os root pid (input ++ more) s).1 := by
  obtain ⟨bodies, tail, hbodies, htail, hinput⟩ := exists_bodies input
  have hrun := run_of_bodies hshort hos hstat hsized hbodies htail
  rw [← hinput] at hrun
  refine ⟨⟨bodies, tail, hbodies, htail, hinput, hrun⟩, fun more => ?_⟩
  -- what arrives later completes the tail, or lies behind it
  obtain ⟨bodies', tail', hbodies', htail', hrest⟩ := exists_bodies (tail ++ more)
  have hall : ∀ body ∈ bodies ++ bodies', Sendable body := by
    intro body hbody
    rcases List.mem_append.1 hbody with hbody | hbody
    · exact hbodies body hbody
    · exact hbodies' body hbody
  have hmore : input ++ more = (bodies ++ bodies').flatMap frameOf ++ tail' := by
    rw [hinput, List.append_assoc, hrest, List.flatMap_append, List.append_assoc]
  rw [hmore, run_of_bodies hshort hos hstat hsized hall htail', hrun]
  apply List.IsPrefix.map
  exact (List.prefix_cons_inj _).2 (serve_append bodies bodies' s')

end Serving

theorem distinct_oneStream : Client.oneStream.Distinct := by
  intro _ _ stream h
  cases h
  exact ⟨List.not_mem_nil, fun _ => trivial⟩

/-- A request and the first byte of another. -/
theorem run_serves_oneStream : ∃ bodies tail, (∀ body ∈ bodies, Sendable body) ∧ Drained tail ∧
    Client.requestFrame Client.plainRequest 10000 ++ [0] = bodies.flatMap frameOf ++ tail ∧
    run Engine.plain Client.oneStream oneFile 7 (Client.requestFrame Client.plainRequest 10000 ++ [0]) 0 =
      ((hello 7 oneFile.stat :: serve Engine.plain Client.oneStream oneFile bodies 0).map
          (fun v => frameOf (toVec v)), if tail = [] then .ok else .error) :=
  (run_serves short_plain distinct_oneStream rfl ⟨by decide, by decide, by decide⟩ _).1

end JevGrep.Worker
