/-
# `JevGrep.Service.Tracing` — a call, traced through the registry and the client to the worker and back.

A response that is ok has come from a success of the worker, and a success of the worker on a read with one hit
becomes the response of the read. Both hold for a call that nothing is in the way of (`Calm`), and for both the
requests in between are known: the one that the registry reads, and the one that the worker decodes (`Traced`).

* §1 the round of a request; §2 calls with nothing in their way; §3 what an answer comes from; §4 a read on its way.
-/
import JevGrep.Service.Site
import JevGrep.Service.Asking
import JevGrep.Worker.Agree

namespace JevGrep.Service

open JevGrep.Lib JevGrep.Lib.Schema JevGrep.Lib.Transition
open JevGrep.Lib.Utf16 (encode encode_injective)
open JevGrep.Contracts (JsString)
open JevGrep.Worker (Bytes Engine FRAME_CAP ReadLike Success fromSlice reply toVec writeFrame)
open JevGrep.Workspace (Registry SearchRequest)
open JevGrep.Client (Runtime Sendable WorkerRequest WorkerResponse WorkerSuccess acceptInput frameOf requestBody
  requestFrame requestId validateWorkerResponse)

/-! ## §1 — the round of a request. -/

section Round

variable {σ φ : Type} {site : Site σ φ} {visit : Visit σ} {rt : Runtime} {k n : Nat} {request : WorkerRequest}
  {input : List (List UInt16 × Json)} {ws : WorkerSuccess}

/-- The body of a request, as the worker receives it. -/
theorem receive_request (hk : k ≤ MAX_SAFE_INTEGER) (haccept : acceptInput (requestId k) input = some request)
    (hn : n ≤ request.deadlineMs) : Worker.receive (requestFrame request n) = .broken ∨
      Worker.receive (requestFrame request n) = Worker.Received.ofBody (requestBody request n) [] := by
  have hlength := Client.length_requestBody_lt (Client.bounded_of_accepted hk haccept) hn
  obtain ⟨a, b, c, d, hbytes, hsize⟩ := Worker.fromBeBytes_toBeBytes hlength (requestBody request n)
  rw [Client.requestFrame_eq, frameOf, hbytes, Worker.receive_header hsize]
  split
  · exact .inl rfl
  · rw [if_neg (Nat.lt_irrefl _), List.take_length, List.drop_length]
    exact .inr rfl

/-- A response comes from a search that the process went through. -/
theorem exists_search (hk : k ≤ MAX_SAFE_INTEGER) (haccept : acceptInput (requestId k) input = some request)
    (hn : n ≤ request.deadlineMs) (hreads : ∀ v, rt.parse (toVec v) = some v) {response : WorkerResponse}
    (h : site.response visit rt request (requestFrame request n) = some response) :
    ∃ t out w', fromSlice (requestBody request n) = some t ∧
      Worker.search site.engine site.os site.root t ⟨visit.searching, []⟩ = (out, w') ∧
      validateWorkerResponse (reply t out) request (toVec (reply t out)).length = some response := by
  have hresponse : ∀ v frame, writeFrame v = some frame → responseOf rt request frame
      = validateWorkerResponse v request (toVec v).length := by
    intro v frame hv
    obtain ⟨-, rfl⟩ := Client.writeFrame_eq_some hv
    have hdrop : (frameOf (toVec v)).drop 4 = toVec v := rfl
    rw [responseOf, hdrop, hreads v]
    rfl
  rw [Site.response, Worker.round] at h
  rcases receive_request hk haccept hn with hbroken | hbody
  · -- the process returns at a frame over the cap
    rw [hbroken] at h
    cases h
  · rw [hbody, Worker.Received.ofBody] at h
    cases hslice : fromSlice (requestBody request n) with
    | none =>
      -- a body that is not decoded is answered without its id, which the client does not take
      rw [hslice] at h
      dsimp only at h
      cases hwritten : writeFrame Worker.invalidReply with
      | none =>
        rw [hwritten] at h
        cases h
      | some frame =>
        rw [hwritten] at h
        dsimp only at h
        have hid := (Client.acceptInput_spec haccept).id
        rw [hresponse _ _ hwritten, Client.validate_invalidReply hid] at h
        cases h
    | some t =>
      rw [hslice] at h
      dsimp only at h
      rcases hrun : Worker.search site.engine site.os site.root t ⟨visit.searching, []⟩ with ⟨out, w'⟩
      rw [hrun] at h
      dsimp only at h
      cases hwritten : writeFrame (reply t out) with
      | none =>
        rw [hwritten] at h
        cases h
      | some frame =>
        rw [hwritten] at h
        dsimp only at h
        rw [hresponse _ _ hwritten] at h
        exact ⟨t, out, w', rfl, hrun, h⟩

/-- A success that the client was given is one of the worker. -/
theorem ok_of_response (hk : k ≤ MAX_SAFE_INTEGER) (haccept : acceptInput (requestId k) input = some request)
    (hn : n ≤ request.deadlineMs) {t : Worker.Request} (hslice : fromSlice (requestBody request n) = some t)
    {out : Except Worker.Code Success} {size : Nat}
    (h : validateWorkerResponse (reply t out) request size = some (.ok ws)) : ∃ success, out = .ok success := by
  rcases out with code | success
  · have hspec := Client.acceptInput_spec haccept
    have hschema := Client.workerResponseSchema_error hk hspec (Client.sameRequest_of_decoded hspec hn hslice) code
    rw [validateWorkerResponse, hschema] at h
    dsimp only at h
    split at h <;> cases h
  · exact ⟨success, rfl⟩

end Round

/-! ## §2 — a call with nothing in its way. -/

/-- What is documented of the platform: SHA-256 gives 32 bytes, the matcher and the numbers of the worker are
regular, the fixed pattern of a read compiles, and `toISOString` gives 24 characters, or 27. -/
structure Platform {σ φ : Type} (site : Site σ φ) : Prop where
  sha256 : ∀ b, (site.host.sha256 b).length = 32
  regular : Client.Regular site.engine
  fixed : (site.engine.matcher "scoped-read".toList .literal true).isSome = true
  iso : ∀ n, 24 ≤ Json.escapedBytes (site.dates.iso n) ∧ Json.escapedBytes (site.dates.iso n) ≤ 27

/-- A call that nothing is in the way of: the workspace is registered with a worker that has nothing in flight,
and no deadline passes. -/
structure Calm {σ φ : Type} (site : Site σ φ) (visit : Visit σ) (workspaceId : JsString) (context : Context)
    (entry : Workspace.Entry) (slot : Workspace.RootWorker) : Prop where
  serving : Serving site visit workspaceId entry slot
  hearing : Hearing site visit entry
  undisturbed : Undisturbed (site.world visit) context
  ahead : visit.clock 0 ≤ visit.clock 1
  prompt : Prompt site visit (site.host.runtime entry.worker) slot.machine (remainingMs (site.world visit) context)
  dated : ∀ n, site.dates.isDatetime (site.dates.iso (visit.date n)) = true

/-! ## §3 — what an answer comes from. -/

section Execute

variable {w : World} {request : Request} {context caps : Context} {input contextInput : Json} {id : JsString}
  {shown : EffectiveScope} {issues : List Issue} {result : Result}

/-- A response that is ok comes from the `try`. -/
theorem attempt_of_ok (hrequest : parseRequest input = some request) (hcontext : contextSchema contextInput = some context)
    (h : execute w caps input contextInput = some (.ok id shown issues result)) :
    attempt w request (context.lower caps) = .ok (.ok id shown issues result) := by
  have herror : ∀ code, errorResponse w request code ≠ some (.ok id shown issues result) := by
    intro code hcode
    obtain ⟨_, _, hresponse⟩ := errorResponse_eq hcode
    cases hresponse
  unfold execute at h
  rw [hrequest, hcontext] at h
  dsimp only at h
  split at h
  · exact absurd h (herror _)
  · split at h
    · cases h
    · split at h
      · rename_i response hattempt
        rw [hattempt, Option.some.inj h]
      · exact absurd h (herror _)
      · exact absurd h (herror _)

/-- How `execute` goes on behind a success. -/
def continued (w : World) (request : Request) (context : Context) (a : Workspace.Answer) (s : WorkerSuccess) :
    Except Thrown Response :=
  match request.operation with
  | .exact kind _ _ _ => executeExact w request context a s kind
  | .read operation _ _ _ => executeRead w request context a s operation
  | .discover .. => .error .other

theorem not_fail (code : String) : fail w request code ≠ .ok (.ok id shown issues result) := by
  intro hcode
  obtain ⟨_, _, hresponse⟩ := fail_eq hcode
  cases hresponse

/-- It comes from a success of the worker. -/
theorem answered_of_ok (hrequest : parseRequest input = some request)
    (hcontext : contextSchema contextInput = some context)
    (h : execute w caps input contextInput = some (.ok id shown issues result)) :
    ∃ a s, w.search (searchInput request (remainingMs w (context.lower caps)) (context.lower caps).responseBytes)
        = .answered a ∧ a.result = .ok s ∧
      continued w request (context.lower caps) a s = .ok (.ok id shown issues result) := by
  have hattempt := attempt_of_ok hrequest hcontext h
  -- every return of `attempt` before the last is an error
  unfold attempt at hattempt
  dsimp only at hattempt
  split at hattempt
  · exact absurd hattempt (not_fail _)
  · split at hattempt
    · cases hattempt
    · cases hattempt
    · cases hattempt
    · rename_i a ha
      split at hattempt
      · exact absurd hattempt (not_fail _)
      · split at hattempt
        · exact absurd hattempt (not_fail _)
        · split at hattempt
          · exact absurd hattempt (not_fail _)
          · rename_i s hs
            exact ⟨a, s, ha, hs, hattempt⟩

end Execute

section Traced

variable {σ φ : Type} {site : Site σ φ} {visit : Visit σ} {entry : Workspace.Entry} {slot : Workspace.RootWorker}
  {request : Request} {context : Context} {r : SearchRequest} {t : Worker.Request}

/-- The number of the request that a worker with nothing in flight makes next. -/
abbrev nextOf (slot : Workspace.RootWorker) : Nat := slot.machine.worker.sequence + 1

/-- The milliseconds that are left of a call when its frame is written. -/
abbrev writtenMs (site : Site σ φ) (visit : Visit σ) (entry : Workspace.Entry) (slot : Workspace.RootWorker)
    (context : Context) : Nat :=
  leftMs (site.host.runtime entry.worker) slot.machine (remainingMs (site.world visit) context)

/-- The search that a call asks the registry for. -/
abbrev askedOf (site : Site σ φ) (visit : Visit σ) (request : Request) (context : Context) : Json :=
  searchInput request (remainingMs (site.world visit) context) context.responseBytes

/-- What becomes of a call on its way to the process: the registry reads `r`, the client accepts it, and the
worker decodes `t`. -/
structure Traced (site : Site σ φ) (visit : Visit σ) (entry : Workspace.Entry) (slot : Workspace.RootWorker)
    (request : Request) (context : Context) (r : SearchRequest) (t : Worker.Request) : Prop where
  read : Registry.searchSchema site.host (askedOf site visit request context) = some r
  policy : entry.registration.scopePolicyId = r.scopePolicyId
  accepted : acceptInput (requestId (nextOf slot)) (inputOf entry r)
    = some (sentOf (nextOf slot) entry.registration.policy r)
  decoded : fromSlice (requestBody (sentOf (nextOf slot) entry.registration.policy r)
    (writtenMs site visit entry slot context)) = some t

theorem policy_of_serving {workspaceId : JsString} (h : Serving site visit workspaceId entry slot) :
    ∃ policyInput, Workspace.createPolicy policyInput = some entry.registration.policy := by
  obtain ⟨p, hfind, hp⟩ := Option.map_eq_some_iff.1 h.registered
  obtain ⟨hpolicy, -⟩ := (Registry.compiled_after site.host visit.events).entries p (List.mem_of_find?_eq_some hfind)
  rw [← hp]
  exact hpolicy

theorem leftMs_le {rt : Runtime} {m : Client.Machine} {deadlineMs : Nat} (h : rt.clock m.ticks ≤ rt.clock (m.ticks + 1)) :
    leftMs rt m deadlineMs ≤ deadlineMs := by
  unfold leftMs
  omega

namespace Traced

theorem readAs (h : Traced site visit entry slot request context r t) : ReadAs request r := readAs_of_searchInput h.read

theorem deadlineMs (h : Traced site visit entry slot request context r t) :
    r.deadlineMs = remainingMs (site.world visit) context := (searchedAs_of_searchInput h.read).deadlineMs

theorem written_le {workspaceId : JsString} (h : Traced site visit entry slot request context r t)
    (hcalm : Calm site visit workspaceId context entry slot) :
    writtenMs site visit entry slot context ≤ r.deadlineMs := by
  rw [h.deadlineMs]
  exact leftMs_le hcalm.prompt.ahead

theorem same {workspaceId : JsString} (h : Traced site visit entry slot request context r t)
    (hcalm : Calm site visit workspaceId context entry slot) :
    Client.SameRequest (sentOf (nextOf slot) entry.registration.policy r) (writtenMs site visit entry slot context) t :=
  Client.sameRequest_of_decoded (Client.acceptInput_spec h.accepted) (h.written_le hcalm) h.decoded

end Traced

/-- **A success has come all the way from the worker.** -/
theorem traced_of_ok {caps : Context} {input contextInput : Json} {id : JsString} {shown : EffectiveScope}
    {issues : List Issue} {result : Result} (hcalm : Calm site visit request.workspaceId (context.lower caps) entry slot)
    (hrequest : parseRequest input = some request) (hcontext : contextSchema contextInput = some context)
    (h : execute (site.world visit) caps input contextInput = some (.ok id shown issues result)) :
    ∃ r t success w' ws, Traced site visit entry slot request (context.lower caps) r t ∧
      Worker.search site.engine site.os site.root t ⟨visit.searching, []⟩ = (.ok success, w') ∧
      validateWorkerResponse (reply t (.ok success)) (sentOf (nextOf slot) entry.registration.policy r)
        (toVec (reply t (.ok success))).length = some (.ok ws) ∧
      (site.world visit).search (askedOf site visit request (context.lower caps))
        = .answered (Registry.answerOf site.host (searchOf site entry slot r) (.ok ws)) ∧
      continued (site.world visit) request (context.lower caps)
        (Registry.answerOf site.host (searchOf site entry slot r) (.ok ws)) ws = .ok (.ok id shown issues result) := by
  obtain ⟨a, ws, hanswer, hresult, hcontinued⟩ := answered_of_ok hrequest hcontext h
  obtain ⟨policyInput, hpolicy⟩ := policy_of_serving hcalm.serving
  -- whatever is read and accepted of the call is known
  have hread : ∀ r, Registry.searchSchema site.host (askedOf site visit request (context.lower caps)) = some r →
      r.workspaceId = request.workspaceId := fun r hr => (readAs_of_searchInput hr).workspaceId
  have hsent : ∀ r, Registry.searchSchema site.host (askedOf site visit request (context.lower caps)) = some r →
      ∀ sent, acceptInput (requestId (nextOf slot)) (inputOf entry r) = some sent →
        sent = sentOf (nextOf slot) entry.registration.policy r ∧
          sent.deadlineMs = remainingMs (site.world visit) (context.lower caps) := by
    intro r hr sent haccept
    obtain rfl := accepted_eq hpolicy (readAs_of_searchInput hr).narrow haccept
    exact ⟨rfl, (searchedAs_of_searchInput hr).deadlineMs⟩
  have hprompt : ∀ r, Registry.searchSchema site.host (askedOf site visit request (context.lower caps)) = some r →
      ∀ sent, acceptInput (requestId (nextOf slot)) (inputOf entry r) = some sent →
        Prompt site visit (site.host.runtime entry.worker) slot.machine sent.deadlineMs := by
    intro r hr sent haccept
    rw [(hsent r hr sent haccept).2]
    exact hcalm.prompt
  obtain ⟨r, sent, response, hr, hid, haccept, hresponse, rfl⟩ :=
    exists_response hcalm.serving hcalm.hearing hread hprompt hanswer
  obtain ⟨rfl, hdeadline⟩ := hsent r hr sent haccept
  rw [hdeadline] at hresponse
  have hleft : writtenMs site visit entry slot (context.lower caps)
      ≤ (sentOf (nextOf slot) entry.registration.policy r).deadlineMs := by
    rw [hdeadline]
    exact leftMs_le hcalm.prompt.ahead
  have hk : nextOf slot ≤ MAX_SAFE_INTEGER := hcalm.serving.idle.numbered
  obtain rfl : response = .ok ws := hresult
  obtain ⟨t, out, w', hslice, hrun, hvalidated⟩ := exists_search hk haccept hleft hcalm.hearing.reads hresponse
  obtain ⟨success, rfl⟩ := ok_of_response hk haccept hleft hslice hvalidated
  exact ⟨r, t, success, w', ws, ⟨hr, hid, haccept, hslice⟩, hrun, hvalidated, hanswer, hcontinued⟩

/-- What the envelope is given of it. -/
theorem served_of_traced (hcalm : Calm site visit request.workspaceId context entry slot)
    (htraced : Traced site visit entry slot request context r t) {success : Success} {w' : Worker.World σ φ}
    (hrun : Worker.search site.engine site.os site.root t ⟨visit.searching, []⟩ = (.ok success, w')) :
    Served site.host site.engine site.os (askedOf site visit request context)
      (Registry.answerOf site.host (searchOf site entry slot r) (.ok (.ofSuccess success))) success r
      (sentOf (nextOf slot) entry.registration.policy r) t := by
  have hserving : Serving site visit r.workspaceId entry slot := by
    rw [htraced.readAs.workspaceId]
    exact hcalm.serving
  exact ⟨⟨visit.events, none, entry, _, asks_of_serving hserving htraced.read htraced.policy, rfl⟩,
    ⟨nextOf slot, htraced.accepted⟩, ⟨_, htraced.written_le hcalm, htraced.decoded⟩,
    ⟨site.root, visit.searching, w', hrun⟩⟩

/-- A success without a read is given to the client as it is. -/
theorem ofSuccess_of_validated {sent : WorkerRequest} {success : Success} {w' : Worker.World σ φ} {size : Nat}
    {ws : WorkerSuccess} (hregular : Client.Regular site.engine) (hread : t.read = none)
    (hrun : Worker.search site.engine site.os site.root t ⟨visit.searching, []⟩ = (.ok success, w'))
    (h : validateWorkerResponse (reply t (.ok success)) sent size = some (.ok ws)) : ws = .ofSuccess success := by
  obtain ⟨matcher, deadline, hmatcher, hpromised⟩ := Worker.search_promised hrun
  obtain ⟨_, _, hchecked, -⟩ := Worker.search_ok hrun
  have hvalid := Worker.validate_ok hchecked
  have hreadable := Client.readable_of_promised hregular hvalid hmatcher hpromised
    ((hpromised.most hread).trans hvalid.maxMatches.2)
  have hschema : Client.workerResponseSchema (reply t (.ok success)) = some (.ok (.ofSuccess success)) :=
    Client.workerResponseSchema_success hreadable
  rw [validateWorkerResponse, hschema] at h
  dsimp only at h
  split at h
  · cases h
  · split at h
    · exact (WorkerResponse.ok.inj (Option.some.inj h)).symm
    · cases h

section Whole

variable {w : World} {a : Workspace.Answer} {s : WorkerSuccess} {id : JsString} {shown : EffectiveScope}
  {issues : List Issue} {result : Result}

theorem eq_of_finish {reading : Nat} {response : Response}
    (h : finish w request context reading response = .ok (.ok id shown issues result)) :
    response = .ok id shown issues result := by
  rcases finish_eq h with ⟨_, _, herror⟩ | ⟨hsame, -⟩
  · cases herror
  · exact hsame.symm

/-- Only an exact request has an exact response. -/
theorem exact_of_continued {startedAt endedAt : Nat} {coverage : ExactCoverage} {hits : List ExactMatch}
    (h : continued w request context a s = .ok (.ok id shown issues (.exact startedAt endedAt coverage hits))) :
    ∃ kind query caseSensitive maxMatches, request.operation = .exact kind query caseSensitive maxMatches := by
  cases hoperation : request.operation with
  | exact kind query caseSensitive maxMatches => exact ⟨kind, query, caseSensitive, maxMatches, rfl⟩
  | discover question anchors =>
    rw [continued, hoperation] at h
    cases h
  | read operation path range byteBudget =>
    rw [continued, hoperation] at h
    dsimp only at h
    unfold executeRead at h
    split at h
    · exact absurd h (not_fail _)
    · cases eq_of_finish h

/-- An exact response that is complete is the whole of a success without reasons, and within the budget. -/
theorem whole_of_complete {startedAt endedAt : Nat} {hits : List ExactMatch} {kind : Worker.QueryKind} {query : JsString}
    {caseSensitive : Bool} {maxMatches : Nat} (hcodes : ∀ c ∈ s.reasons, c ∈ Worker.issueCodes)
    (hoperation : request.operation = .exact kind query caseSensitive maxMatches)
    (h : continued w request context a s = .ok (.ok id shown issues (.exact startedAt endedAt .complete hits))) :
    s.reasons = [] ∧ fullResponse w request a s kind = .ok id shown issues (.exact startedAt endedAt .complete hits) ∧
      (fullResponse w request a s kind).bytes w.dates ≤ context.responseBytes := by
  rw [continued, hoperation] at h
  dsimp only at h
  rw [executeExact_eq] at h
  split at h
  · -- what is cut is not complete
    split at h
    · exact absurd h (not_fail _)
    · cases eq_of_finish h
  · rename_i hfits
    have hfull := eq_of_finish h
    obtain ⟨-, -, -, hresult⟩ := Response.ok.inj hfull
    obtain ⟨-, -, hcoverage, -⟩ := Result.exact.inj hresult
    refine ⟨codes_eq_nil hcodes (Decidable.byContradiction fun hsome => ?_), hfull, Nat.not_lt.1 hfits⟩
    rw [coverageOf, if_neg hsome] at hcoverage
    cases hcoverage

end Whole

end Traced

/-! ## §4 — a read on its way. -/

theorem ofInput_injective : Function.Injective Client.WorkerScope.ofInput := by
  intro t t' h
  obtain ⟨hgroups, hexclude, hhidden, hignore⟩ := Client.WorkerScope.mk.inj h
  have hstrings : Function.Injective (List.map encode) := List.map_injective_iff.2 encode_injective
  have hgroups := List.map_injective_iff.2 hstrings hgroups
  have hexclude := hstrings hexclude
  cases t
  cases t'
  simp_all

section Ways

variable {k k' n n' : Nat} {policy : Workspace.Policy} {r r' : SearchRequest} {t t' : Worker.Request}
  {q : Client.WorkerRead}

/-- A read under the same policy and narrowing is in the scope of the search. -/
theorem readLike_of_same (hsame : Client.SameRequest (sentOf k policy r) n t)
    (hsame' : Client.SameRequest (sentOf k' policy r') n' t') (hread : t.read = none) {read : Worker.ReadRequest}
    (hread' : t'.read = some read) (hnarrow : r'.narrow = r.narrow) : ReadLike t t' read := by
  have hscope : t'.scope = t.scope := by
    apply ofInput_injective
    rw [hsame.scope.2 _ rfl, hsame'.scope.2 _ rfl, Registry.searchScope, Registry.searchScope, hnarrow]
  refine ⟨hread, hread', hscope, hsame'.maxFileBytes.trans hsame.maxFileBytes.symm,
    hsame'.maxDepth.trans hsame.maxDepth.symm, ?_, hsame.validateScopeOnly, hsame'.validateScopeOnly⟩
  rw [hsame.maxEntries, hsame'.maxEntries]
  exact Nat.le_refl 100000

/-- The read that the worker has. -/
theorem exists_read (hsame : Client.SameRequest (sentOf k policy r) n t) (hread : r.read = some q) :
    ∃ read, t.read = some read ∧ encode read.path = q.path ∧ read.range = q.range ∧
      read.expectedFileSha256.map encode = q.expectedFileSha256 := by
  have hsome := hsame.read
  rw [show (sentOf k policy r).read = some q from hread, Option.map_eq_some_iff] at hsome
  obtain ⟨read, hasked, rfl⟩ := hsome
  exact ⟨read, hasked, rfl, rfl, rfl⟩

/-- A valid search for the fixed pattern is let through. -/
theorem validate_of_valid (h : Worker.Valid t) (hpattern : t.pattern = "scoped-read".toList)
    (hkind : t.kind = .literal) (hdeadline : 1 ≤ t.deadlineMs ∧ t.deadlineMs ≤ 30000) :
    Worker.validate t = .ok () := by
  have hid : t.id.isEmpty = false := List.isEmpty_eq_false_iff.2 h.id_ne
  have hchars : t.id.all Worker.idChar = true := List.all_eq_true.2 h.id_chars
  have hlength : Utf16.utf8Len t.pattern ≤ 8192 := by
    rw [hpattern]
    decide
  have hplain : (t.pattern.any fun c => c == '\x00' || c == '\x0d' || c == '\n') = false := by
    rw [hpattern]
    decide
  have hempty : t.pattern.isEmpty = false := by
    rw [hpattern]
    rfl
  unfold Worker.validate
  rw [if_neg]
  · cases hread : t.read with
    | none =>
      simp [hkind]
      rfl
    | some read =>
      obtain ⟨hpath, hordered, hstop, hshort⟩ := h.read read hread
      simp [hkind, hpath, Nat.not_lt.2 hordered, Nat.not_lt.2 hstop, Nat.not_lt.2 hshort]
      rfl
  · simp [hplain, hempty, hid, hchars, h.v, h.id_length, hlength, h.maxMatches, h.maxFileBytes, h.responseBytes,
      h.maxEntries, h.maxDepth, hdeadline]

/-- The worker has nothing against a read in a file. -/
theorem validate_read {read : Worker.ReadRequest} {request : Request} {remaining responseBytes : Nat}
    {narrow : Option Workspace.Narrow} {policyInput : Json} (hk : k ≤ MAX_SAFE_INTEGER)
    (hpolicy : Workspace.createPolicy policyInput = some policy)
    (hsame : Client.SameRequest (sentOf k policy (readOf request q remaining responseBytes narrow)) n t)
    (hread : t.read = some read) (hpath : Worker.validPath read.path = true)
    (hordered : read.range.start ≤ read.range.stop) (hstop : read.range.stop ≤ policy.maxFileBytes)
    (hlength : read.range.stop - read.range.start ≤ 4096) (hn : 1 ≤ n ∧ n ≤ 30000)
    (hbytes : 2048 ≤ responseBytes ∧ responseBytes ≤ 1048576) : Worker.validate t = .ok () := by
  have hpattern : t.pattern = "scoped-read".toList := encode_injective hsame.pattern
  have hid : t.id = "q-".toList ++ Nat.toDigits 10 k := encode_injective hsame.id
  have hidChars : ∀ c ∈ t.id, Worker.idChar c = true ∧ c.toNat < 0x80 := by
    rw [hid]
    intro c hc
    rcases List.mem_append.1 hc with hc | hc
    · have hpair : "q-".toList = ['q', '-'] := rfl
      rw [hpair, List.mem_cons, List.mem_singleton] at hc
      rcases hc with rfl | rfl <;> decide
    · have hdigit := Nat.isDigit_of_mem_toDigits (by decide) (by decide) hc
      have hnine : c.toNat ≤ 57 := (Char.isDigit_iff_toNat.1 hdigit).2
      refine ⟨?_, by omega⟩
      rw [Worker.idChar, Char.isAlphanum, hdigit]
      simp
  refine validate_of_valid ⟨hsame.v, ?_, ?_, fun c hc => (hidChars c hc).1, ?_, ?_, ?_, ?_, ?_, ?_⟩ hpattern hsame.kind ?_
  · rw [hid]
    exact List.cons_ne_nil _ _
  · rw [Json.utf8Len_ascii fun c hc => (hidChars c hc).2, hid]
    exact Client.length_requestId hk
  -- what the client fills in is within the bounds of the worker
  · rw [hsame.maxMatches]
    exact (by decide : 1 ≤ 100 ∧ 100 ≤ 1000)
  · rw [hsame.maxFileBytes]
    exact maxFileBytes_of_createPolicy hpolicy
  · rw [hsame.responseBytes]
    exact hbytes
  · rw [hsame.maxEntries]
    exact (by decide : 1 ≤ 100000 ∧ 100000 ≤ 100000)
  · rw [hsame.maxDepth]
    exact (by decide : 1 ≤ 64 ∧ 64 ≤ 64)
  · intro read' hread'
    obtain rfl := Option.some.inj (hread.symm.trans hread')
    refine ⟨hpath, hordered, ?_, hlength⟩
    rw [hsame.maxFileBytes]
    exact hstop
  · rw [hsame.deadlineMs]
    exact hn

end Ways

section Back

variable {σ φ : Type} {site : Site σ φ} {visit : Visit σ} {rt : Runtime} {k n : Nat} {sent : WorkerRequest}
  {input : List (List UInt16 × Json)} {t : Worker.Request} {success : Success} {w' : Worker.World σ φ}

/-- The body of a request with well-formed strings is decoded. -/
theorem exists_decoded (haccept : acceptInput (requestId k) input = some sent) (hn : n ≤ sent.deadlineMs)
    (hwell : ∀ s ∈ sent.uncheckedStrings, Utf16.isWellFormed s = true) :
    ∃ t, fromSlice (requestBody sent n) = some t := by
  have hspec := Client.acceptInput_spec haccept
  obtain ⟨t, ht⟩ := Client.exists_sameRequest hspec hwell n
  refine ⟨t, ?_⟩
  rw [Client.fromSlice_requestBody]
  exact Client.deRequest_json (hspec.fits hn) ht

/-- A success with at most one hit comes back to the client. -/
theorem response_of_success (haccept : acceptInput (requestId k) input = some sent) (hn : n ≤ sent.deadlineMs)
    (hreads : ∀ v, rt.parse (toVec v) = some v) (hregular : Client.Regular site.engine)
    (hslice : fromSlice (requestBody sent n) = some t) (hcap : (requestBody sent n).length ≤ FRAME_CAP)
    (hrun : Worker.search site.engine site.os site.root t ⟨visit.searching, []⟩ = (.ok success, w'))
    (hone : success.hits.length ≤ 1) :
    site.response visit rt sent (requestFrame sent n) = some (.ok (.ofSuccess success)) := by
  have hsame := Client.sameRequest_of_decoded (Client.acceptInput_spec haccept) hn hslice
  obtain ⟨matcher, deadline, -, hpromised⟩ := Worker.search_promised hrun
  obtain ⟨_, _, hchecked, -⟩ := Worker.search_ok hrun
  have hvalid := Worker.validate_ok hchecked
  have hsize : (toVec (reply t (.ok success))).length ≤ t.responseBytes := by
    rw [Worker.length_toVec]
    exact (Worker.size_success_le hvalid hregular.toShort hpromised).trans
      (Worker.chargeOf_le hpromised hvalid.responseBytes.1 (.inr hone))
  have hframe : writeFrame (reply t (.ok success)) = some (frameOf (toVec (reply t (.ok success)))) := by
    rw [writeFrame, if_neg (Nat.not_lt.2 (hsize.trans hvalid.responseBytes.2))]
    rfl
  have hreceive : Worker.receive (requestFrame sent n) = .request t [] := by
    have hpos : 1 ≤ (requestBody sent n).length := by
      rw [Client.length_requestBody, Client.requestBytes]
      omega
    have hreceived : Worker.receive (requestFrame sent n ++ []) = .request t [] :=
      Client.receive_frame hpos hcap hslice
    rwa [List.append_nil] at hreceived
  have hvalidated := Client.validate_success hsame hregular hrun (hone.trans hvalid.maxMatches.1)
    (hsize.trans_eq hsame.responseBytes)
  have hdrop : (frameOf (toVec (reply t (.ok success)))).drop 4 = toVec (reply t (.ok success)) := rfl
  rw [Site.response, Worker.round, hreceive]
  dsimp only
  rw [hrun]
  dsimp only
  rw [hframe]
  dsimp only
  rw [responseOf, hdrop, hreads]
  exact hvalidated

end Back

section Tracing

variable {σ φ : Type} {site : Site σ φ} {visit visit' : Visit σ} {entry : Workspace.Entry}
  {slot slot' : Workspace.RootWorker} {request request' : Request} {context context' : Context} {r : SearchRequest}
  {t : Worker.Request}

theorem remainingMs_bounds {workspaceId : JsString} (hcalm : Calm site visit workspaceId context entry slot) :
    1 ≤ remainingMs (site.world visit) context ∧ remainingMs (site.world visit) context ≤ context.deadlineMs := by
  have hremaining : 1 ≤ ((context.deadlineMs : Int) * 1000000 - (visit.clock 1 - visit.clock 0)) / 1000000 :=
    hcalm.undisturbed.remaining
  have hahead := hcalm.ahead
  have hdef : remainingMs (site.world visit) context
      = (((context.deadlineMs : Int) * 1000000 - (visit.clock 1 - visit.clock 0)) / 1000000).toNat := rfl
  rw [hdef]
  omega

/-- A read that a call asks the registry for, with the narrowing of a search. -/
abbrev readFor (site : Site σ φ) (visit : Visit σ) (request : Request) (context : Context) (q : Client.WorkerRead)
    (r : SearchRequest) : SearchRequest :=
  readOf request q (remainingMs (site.world visit) context) context.responseBytes r.narrow

/-- The strings of a read in the scope of a search that was decoded are well formed. -/
theorem wellFormed_read {k k' n remaining responseBytes : Nat} {policy : Workspace.Policy} {q : Client.WorkerRead}
    (hsame : Client.SameRequest (sentOf k policy r) n t) (hpath : Utf16.isWellFormed q.path = true) :
    ∀ s ∈ (sentOf k' policy (readOf request q remaining responseBytes r.narrow)).uncheckedStrings,
      Utf16.isWellFormed s = true := by
  intro s hs
  rcases List.mem_append.1 hs with hscope | hread
  · exact hsame.wellFormed s (List.mem_append_left _ hscope)
  · obtain rfl := List.mem_singleton.1 hread
    exact hpath

/-- **A read finds its way** wherever a search with its ids and its narrowing has found it. -/
theorem exists_traced_read (hcalm : Calm site visit request.workspaceId context entry slot)
    (htraced : Traced site visit entry slot request context r t)
    (hcalm' : Calm site visit' request'.workspaceId context' entry slot')
    (hworkspace : request'.workspaceId = request.workspaceId)
    (hpolicy : request'.scopePolicyId = request.scopePolicyId) (hnarrow : request'.narrow = request.narrow)
    {operation : ReadOperation} {path : JsString} {range : Worker.Range} {byteBudget : Nat}
    (hoperation : request'.operation = .read operation path range byteBudget)
    (hread : Readable ⟨path, range, operation.expected⟩ byteBudget) (hdeadline : context'.deadlineMs ≤ 30000)
    (hbytes : 2048 ≤ context'.responseBytes ∧ context'.responseBytes ≤ 1048576) :
    ∃ t', Traced site visit' entry slot' request' context'
      (readFor site visit' request' context' ⟨path, range, operation.expected⟩ r) t' := by
  obtain ⟨policyInput, hcreated⟩ := policy_of_serving hcalm.serving
  obtain ⟨hone, hmost⟩ := remainingMs_bounds hcalm'
  have hremaining := And.intro hone (hmost.trans hdeadline)
  set r' := readFor site visit' request' context' ⟨path, range, operation.expected⟩ r
  have haccepted : acceptInput (requestId (nextOf slot')) (inputOf entry r')
      = some (sentOf (nextOf slot') entry.registration.policy r') :=
    acceptInput_read hcreated htraced.readAs.narrow hread.askable hremaining hbytes
  have hleft : writtenMs site visit' entry slot' context'
      ≤ (sentOf (nextOf slot') entry.registration.policy r').deadlineMs := leftMs_le hcalm'.prompt.ahead
  -- the read has the scope of the search, whose strings were decoded
  obtain ⟨t', ht'⟩ := exists_decoded haccepted hleft (wellFormed_read (htraced.same hcalm) hread.path)
  refine ⟨t', ?_, ?_, haccepted, ht'⟩
  · exact searchSchema_read htraced.read hworkspace hpolicy hnarrow hoperation hread.askable hremaining hbytes
  · rw [htraced.policy, htraced.readAs.scopePolicyId]
    exact hpolicy.symm

end Tracing

section Read

variable {σ φ : Type} {site : Site σ φ} {visit : Visit σ} {entry : Workspace.Entry} {slot : Workspace.RootWorker}
  {request : Request} {context caps : Context} {input contextInput : Json} {r : SearchRequest} {t : Worker.Request}
  {success : Success} {w' : Worker.World σ φ}

theorem standard_of_calm {workspaceId : JsString} (hplatform : Platform site)
    (hcalm : Calm site visit workspaceId context entry slot) : Standard (site.world visit) where
  sha256 := hplatform.sha256
  dated := hcalm.dated

/-- Nothing interrupts a call that nothing is in the way of, if what it builds fits. -/
theorem built_of_calm {a : Workspace.Answer} {s : WorkerSuccess} {response built : Response} {workspaceId : JsString}
    (hcalm : Calm site visit workspaceId context entry slot) (hbuilt : Built (site.world visit) request a s built)
    (hfits : built.bytes site.dates ≤ context.responseBytes)
    (h : Built (site.world visit) request a s response ∨
      Interrupted (site.world visit) request context a s response) : Built (site.world visit) request a s response := by
  refine h.resolve_right fun hinterrupted => ?_
  cases hinterrupted with
  | cancelled haborted =>
    rw [hcalm.undisturbed.before, hcalm.undisturbed.after] at haborted
    rcases haborted with h | h <;> cases h
  | deadline hlate =>
    rcases hlate with hnone | ⟨n, hlate⟩
    · exact absurd hcalm.undisturbed.remaining (Int.not_le.2 hnone)
    · rw [hcalm.undisturbed.punctual n] at hlate
      cases hlate
  | byteLimit hover => exact absurd (hover built hbuilt) (Nat.not_lt.2 hfits)

/-- **A read that the worker answers is answered**, with the evidence of its hit. -/
theorem execute_read (hplatform : Platform site)
    (hcalm : Calm site visit request.workspaceId (context.lower caps) entry slot)
    (hrequest : parseRequest input = some request) (hcontext : contextSchema contextInput = some context)
    {operation : ReadOperation} {path : JsString} {range : Worker.Range} {byteBudget : Nat}
    (hoperation : request.operation = .read operation path range byteBudget)
    (htraced : Traced site visit entry slot request (context.lower caps) r t)
    (hcap : (requestBody (sentOf (nextOf slot) entry.registration.policy r)
      (writtenMs site visit entry slot (context.lower caps))).length ≤ FRAME_CAP)
    (hrun : Worker.search site.engine site.os site.root t ⟨visit.searching, []⟩ = (.ok success, w'))
    {hit : Worker.Hit} (hhits : success.hits = [hit])
    (hfits : (readResponse (site.world visit) request
      (Registry.answerOf site.host (searchOf site entry slot r) (.ok (.ofSuccess success))) (.ofSuccess success)
      operation (.ofHit hit)).bytes site.dates ≤ (context.lower caps).responseBytes) :
    execute (site.world visit) caps input contextInput = some (readResponse (site.world visit) request
      (Registry.answerOf site.host (searchOf site entry slot r) (.ok (.ofSuccess success))) (.ofSuccess success)
      operation (.ofHit hit)) := by
  set a := Registry.answerOf site.host (searchOf site entry slot r) (.ok (.ofSuccess success)) with ha
  have hserving : Serving site visit r.workspaceId entry slot := by
    rw [htraced.readAs.workspaceId]
    exact hcalm.serving
  have hone : success.hits.length ≤ 1 := by
    rw [hhits]
    exact Nat.le_refl 1
  set sent := sentOf (nextOf slot) entry.registration.policy r
  have hresponse : site.response visit (site.host.runtime entry.worker) sent
      (requestFrame sent (writtenMs site visit entry slot (context.lower caps))) = some (.ok (.ofSuccess success)) :=
    response_of_success htraced.accepted (htraced.written_le hcalm) hcalm.hearing.reads hplatform.regular
      htraced.decoded hcap hrun hone
  have hdeadline : sent.deadlineMs = remainingMs (site.world visit) (context.lower caps) := htraced.deadlineMs
  have hprompt : Prompt site visit (site.host.runtime entry.worker) slot.machine sent.deadlineMs := by
    rw [hdeadline]
    exact hcalm.prompt
  rw [writtenMs, ← hdeadline] at hresponse
  have hanswer : (site.world visit).search (askedOf site visit request (context.lower caps)) = .answered a :=
    search_answered hserving hcalm.hearing htraced.read htraced.policy htraced.accepted hprompt hresponse
  have hserved := served_of_traced hcalm htraced hrun
  obtain ⟨response, hexecute, hend⟩ := execute_of_served (standard_of_calm hplatform hcalm) hplatform.sha256
    hplatform.regular hrequest hcontext htraced.readAs hserved hanswer
  have hofHits : (WorkerSuccess.ofSuccess success).hits = [.ofHit hit] := by
    show success.hits.map Client.WorkerHit.ofHit = _
    rw [hhits]
    rfl
  have hread : Built (site.world visit) request a (.ofSuccess success)
      (readResponse (site.world visit) request a (.ofSuccess success) operation (.ofHit hit)) :=
    .read hoperation hofHits
  -- of the three that can be built the operation leaves one
  rw [hexecute]
  cases built_of_calm hcalm hread hfits hend with
  | whole h =>
    rw [hoperation] at h
    cases h
  | cut h n =>
    rw [hoperation] at h
    cases h
  | read h hsame =>
    obtain ⟨rfl, -⟩ := Operation.read.inj (hoperation.symm.trans h)
    obtain ⟨rfl, -⟩ := List.cons.inj (hofHits.symm.trans hsame)
    rfl

end Read

end JevGrep.Service
