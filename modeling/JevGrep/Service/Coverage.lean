/-
# `JevGrep.Service.Coverage` — when a partial worker result may be published as complete.

Public coverage is recomputed from the worker's codes: a code becomes an issue, an issue may become a
partial reason. Three worker codes become issues that are neither reasons nor fatal nor interruptions,
so nothing but a failed count or another code keeps a result with only these from being published as
complete. `honest_iff` says exactly that.
-/
import Mathlib.Data.List.Perm.Subperm
import JevGrep.Lib.Sha256
import JevGrep.Client.Accept
import JevGrep.Service.Exact

namespace JevGrep.Service

open JevGrep.Lib JevGrep.Lib.Schema JevGrep.Lib.Utf16
open JevGrep.Contracts (JsString)
open JevGrep.Worker (Bytes Code Coverage QueryKind Success hex)
open JevGrep.Client (objectOf WorkerHit WorkerSuccess WorkerResponse WorkerRequest validateWorkerResponse
  successInvariants)
open JevGrep.Workspace (Answer)

/-! ## §1 — an honest response. -/

/-- The published form of a worker's hit. -/
def published (w : World) (a : Answer) (kind : QueryKind) (hit : WorkerHit) : ExactMatch where
  evidence := evidence w.sha256 a hit
  queryKind := kind
  matcherVersion := MATCHER_VERSION

/-- A partial success is answered with an error or a partial result that has a reason, and a result is
complete only when the worker's was, with the worker's hits in their order. -/
def Honest (w : World) (a : Answer) (kind : QueryKind) (s : WorkerSuccess) : Response → Prop
  | .error .. => True
  | .ok _ _ _ (.read ..) => False
  | .ok _ _ _ (.exact _ _ coverage hits) =>
      (s.coverage = .incomplete → ∃ reasons, coverage = .incomplete reasons ∧ reasons ≠ []) ∧
        (coverage = .complete → s.coverage = .complete ∧ hits = s.hits.map (published w a kind))

/-- The worker codes that become neither a partial reason nor a fatal issue. -/
def unmapped : List Code := [.matchEncoding, .outOfScope, .revisionMismatch]

/-- One call of `execute` that an exact search of the worker answers with the success `s`. -/
structure Answered (w : World) (input contextInput : Json) (kind : QueryKind) (a : Answer)
    (s : WorkerSuccess) : Prop where
  request : ∃ request query caseSensitive maxMatches, parseRequest input = some request ∧
    request.operation = .exact kind query caseSensitive maxMatches
  context : (contextSchema contextInput).isSome = true
  search : ∀ v, w.search v = .answered a
  result : a.result = .ok s
  /-- `s` passed the client's validation for some worker request. -/
  accepted : ∃ message request size,
    validateWorkerResponse message request size = some (.ok s)

/-! ## §2 — codes, issues and reasons. -/

/-- Every code but the unmapped ones leaves a partial reason or a fatal issue. -/
theorem mapped_of_not_unmapped {c : Code} (h : c ∉ unmapped) :
    (reasons (mapped (codeName c))).isSome = true ∨ mapped (codeName c) ∈ fatalCodes := by
  revert h
  cases c <;> decide

theorem mem_dedupIssues {issues : List Issue} {i : Issue} (h : i ∈ issues) :
    ∃ j ∈ dedupIssues issues, j.code = i.code := by
  have hfold : ∀ (issues kept : List Issue),
      (∀ j ∈ kept, ∃ k ∈ issues.foldl (fun kept i =>
          if kept.any (·.code == i.code) then kept else kept ++ [i]) kept, k.code = j.code) ∧
      ∀ j ∈ issues, ∃ k ∈ issues.foldl (fun kept i =>
          if kept.any (·.code == i.code) then kept else kept ++ [i]) kept, k.code = j.code := by
    intro issues
    induction issues with
    | nil => exact fun kept => ⟨fun j hj => ⟨j, hj, rfl⟩, nofun⟩
    | cons i issues ih =>
        intro kept
        rw [List.foldl_cons]
        obtain ⟨hkept, hrest⟩ := ih (if kept.any (·.code == i.code) then kept else kept ++ [i])
        refine ⟨fun j hj => hkept j ?_, fun j hj => ?_⟩
        · split
          · exact hj
          · exact List.mem_append_left _ hj
        · rcases List.mem_cons.mp hj with rfl | hj
          · by_cases hany : kept.any (·.code == j.code) = true
            · obtain ⟨k, hk, hcode⟩ := List.any_eq_true.mp hany
              obtain ⟨l, hl, hlk⟩ := hkept k (by rw [if_pos hany]; exact hk)
              exact ⟨l, hl, hlk.trans (beq_iff_eq.mp hcode)⟩
            · exact hkept j (by rw [if_neg hany]; exact List.mem_append_right _ List.mem_cons_self)
          · exact hrest j hj
  exact (hfold issues []).2 i h

/-- Every reason of the worker has an issue with its mapped code. -/
theorem mem_issuesOf {codes : List Code} {c : Code} (h : c ∈ codes) :
    ∃ i ∈ issuesOf codes, i.code = mapped (codeName c) :=
  mem_dedupIssues (List.mem_map.mpr ⟨c, h, rfl⟩)

theorem partialReasonsOf_ne_nil {issues : List Issue} {i : Issue} (hi : i ∈ issues)
    (hr : (reasons i.code).isSome = true) : partialReasonsOf issues ≠ [] := by
  obtain ⟨r, hr⟩ := Option.isSome_iff_exists.mp hr
  have hmem : r ∈ partialReasonsOf issues := by
    rw [partialReasonsOf, List.mem_eraseDups]
    exact List.mem_filterMap.mpr ⟨i, hi, hr⟩
  exact List.ne_nil_of_mem hmem

/-! ## §3 — what `execute` returns. -/

section Execute

variable {w : World} {request : Request} {context : Context} {response r : Response}

/-- `error` returns an error. -/
theorem errorResponse_eq {code : String} (h : errorResponse w request code = some r) :
    ∃ id i, r = .error id i := by
  unfold errorResponse parseResponse at h
  split at h
  · exact ⟨_, _, (Option.some.inj h).symm⟩
  · cases h

theorem fail_eq {code : String} (h : fail w request code = .ok r) : ∃ id i, r = .error id i := by
  unfold fail at h
  split at h
  · rename_i response he
    obtain rfl := Except.ok.inj h
    exact errorResponse_eq he
  · cases h

/-- `finish` returns an error, or the response it was given, which then satisfies the invariants. -/
theorem finish_eq {reading : Nat} (h : finish w request context reading response = .ok r) :
    (∃ id i, r = .error id i) ∨
      (r = response ∧ responseInvariants (response.bytes w.dates) request response = true) := by
  unfold finish at h
  split at h
  · exact .inl (fail_eq h)
  · split at h
    · cases h
    · rename_i validated hv
      split at h
      · exact .inl (fail_eq h)
      · obtain rfl := Except.ok.inj h
        unfold parseResponse at hv
        split at hv
        · rename_i hchecks
          rw [Bool.and_eq_true] at hchecks
          exact .inr ⟨(Option.some.inj hv).symm, hchecks.2⟩
        · cases hv

variable {a : Answer} {s : WorkerSuccess} {kind : QueryKind}

/-- A complete response that passed `parseResponse` reports no failure and no fatal issue. -/
theorem complete_invariants {issues : List Issue} {hits : List WorkerHit} {bytes : Nat}
    (h : responseInvariants bytes request
      (exactResponse w request a s kind issues .complete hits) = true) :
    s.counts.failed = 0 ∧ ∀ i ∈ issues, i.code ∉ fatalCodes := by
  unfold exactResponse at h
  simp only [responseInvariants, Bool.and_eq_true, Bool.not_eq_true', List.any_eq_false,
    List.contains_iff_mem] at h
  obtain ⟨⟨⟨-, hfatal⟩, -⟩, hresult⟩ := h
  refine ⟨?_, hfatal⟩
  unfold resultInvariants at hresult
  split at hresult
  · rename_i hexact _
    obtain ⟨-, -, rfl, -⟩ := Result.exact.inj hexact
    simp only [exactInvariants, Bool.and_eq_true] at hresult
    have hcount := hresult.1.2.2
    exact ReportedCount.known.inj (beq_iff_eq.mp hcount)
  · rename_i hread _
    cases hread
  · rename_i hread _
    cases hread
  · cases hresult

/-- What fits is not cut. -/
theorem executeExact_of_fits
    (h : (exactResponse w request a s kind (issuesOf s.reasons)
      (coverageOf (partialReasonsOf (issuesOf s.reasons))) s.hits).bytes w.dates
        ≤ context.responseBytes) :
    executeExact w request context a s kind = finish w request context 3
      (exactResponse w request a s kind (issuesOf s.reasons)
        (coverageOf (partialReasonsOf (issuesOf s.reasons))) s.hits) := by
  unfold executeExact
  exact if_neg (Nat.not_lt.mpr h)

/-- An exact search that is answered in time. -/
theorem attempt_of_exact {query : JsString} {caseSensitive : Bool} {maxMatches : Nat}
    (hremaining : 1 ≤ (context.deadlineMs * 1000000 - (w.clock 1 - w.clock 0)) / 1000000)
    (hsearch : ∀ v, w.search v = .answered a) (hsignal : w.abortedAfter = false)
    (hlate : late w context 2 = false) (hresult : a.result = .ok s)
    (hoperation : request.operation = .exact kind query caseSensitive maxMatches) :
    attempt w request context = executeExact w request context a s kind := by
  unfold attempt
  dsimp only
  rw [if_neg (Int.not_lt.mpr hremaining), hsearch]
  dsimp only
  rw [hsignal, if_neg Bool.false_ne_true, hlate, if_neg Bool.false_ne_true, hresult]
  dsimp only
  rw [hoperation]

/-- `execute` returns what its `try` returns. -/
theorem execute_of_attempt {caps : Context} {input contextInput : Json}
    (hrequest : parseRequest input = some request) (hcontext : contextSchema contextInput = some context)
    (hsignal : w.abortedBefore = false)
    (hoperation : ∀ question anchors, request.operation ≠ .discover question anchors)
    (h : attempt w request (context.lower caps) = .ok response) :
    execute w caps input contextInput = some response := by
  unfold execute
  rw [hrequest, hcontext]
  dsimp only
  rw [if_neg (by rw [hsignal]; exact Bool.false_ne_true)]
  split
  · rename_i question anchors hdiscover
    exact absurd hdiscover (hoperation question anchors)
  · rw [h]

/-- An exact response is honest when the worker's reasons leave a trace or a failure is counted. -/
theorem executeExact_honest (hs : (s.coverage == Coverage.complete) = s.reasons.isEmpty)
    (hcond : s.reasons = [] ∨ (∃ c ∈ s.reasons, c ∉ unmapped) ∨ s.counts.failed ≠ 0)
    (h : executeExact w request context a s kind = .ok r) : Honest w a kind s r := by
  unfold executeExact at h
  dsimp only at h
  split at h
  · -- cut to the budget: the coverage is partial, with the reason `limit` at least
    split at h
    · obtain ⟨id, i, rfl⟩ := fail_eq h
      trivial
    · rename_i n reading _
      rcases finish_eq h with ⟨id, i, rfl⟩ | ⟨rfl, -⟩
      · trivial
      · refine ⟨fun _ => ⟨_, rfl, ?_⟩, nofun⟩
        have hmem : PartialReason.limit ∈
            (partialReasonsOf (issuesOf s.reasons) ++ [PartialReason.limit]).eraseDups := by
          rw [List.mem_eraseDups]
          exact List.mem_append_right _ List.mem_cons_self
        exact List.ne_nil_of_mem hmem
  · rcases finish_eq h with ⟨id, i, rfl⟩ | ⟨rfl, hinv⟩
    · trivial
    · by_cases hnone : partialReasonsOf (issuesOf s.reasons) = []
      · have hcov : coverageOf (partialReasonsOf (issuesOf s.reasons)) = .complete := if_pos hnone
        rw [hcov] at hinv ⊢
        obtain ⟨hfailed, hfatal⟩ := complete_invariants hinv
        have hreasons : s.reasons = [] := by
          rcases hcond with hnil | ⟨c, hc, hmap⟩ | hf
          · exact hnil
          · obtain ⟨i, hi, hcode⟩ := mem_issuesOf hc
            rcases mapped_of_not_unmapped hmap with hr | hf
            · exact absurd hnone (partialReasonsOf_ne_nil hi (by rw [hcode]; exact hr))
            · exact absurd (by rw [hcode]; exact hf) (hfatal i hi)
          · exact absurd hfailed hf
        have hcomplete : s.coverage = .complete := by
          rw [hreasons] at hs
          exact beq_iff_eq.mp hs
        refine ⟨fun hp => ?_, fun _ => ⟨hcomplete, rfl⟩⟩
        rw [hcomplete] at hp
        cases hp
      · have hcov : coverageOf (partialReasonsOf (issuesOf s.reasons))
            = .incomplete (partialReasonsOf (issuesOf s.reasons)) := if_neg hnone
        rw [hcov]
        exact ⟨fun _ => ⟨_, rfl, hnone⟩, nofun⟩

end Execute

theorem error_honest {w : World} {a : Answer} {kind : QueryKind} {s : WorkerSuccess} {r : Response}
    (h : ∃ id i, r = .error id i) : Honest w a kind s r := by
  obtain ⟨id, i, rfl⟩ := h
  trivial

/-- What the client's validation makes sure of: complete exactly without reasons. -/
theorem coverage_of_accepted {message : Json} {request : WorkerRequest} {size : Nat}
    {s : WorkerSuccess} (h : validateWorkerResponse message request size = some (.ok s)) :
    (s.coverage == Coverage.complete) = s.reasons.isEmpty := by
  unfold validateWorkerResponse at h
  split at h
  · cases h
  · split at h
    · cases h
    · split at h
      · cases Option.some.inj h
      · split at h
        · rename_i hinv
          obtain rfl := WorkerResponse.ok.inj (Option.some.inj h)
          simp only [successInvariants, Bool.and_eq_true] at hinv
          exact beq_iff_eq.mp hinv.1.1.2
        · cases h

/-- **One direction.** A trace of the worker's reasons, or a counted failure, keeps `execute` honest. -/
theorem execute_honest {w : World} {caps : Context} {input contextInput : Json} {kind : QueryKind}
    {a : Answer} {s : WorkerSuccess} {r : Response} (h : Answered w input contextInput kind a s)
    (hcond : s.reasons = [] ∨ (∃ c ∈ s.reasons, c ∉ unmapped) ∨ s.counts.failed ≠ 0)
    (hr : execute w caps input contextInput = some r) : Honest w a kind s r := by
  obtain ⟨request, query, caseSensitive, maxMatches, hparse, hop⟩ := h.request
  obtain ⟨context, hcontext⟩ := Option.isSome_iff_exists.mp h.context
  obtain ⟨message, workerRequest, size, haccepted⟩ := h.accepted
  unfold execute at hr
  rw [hparse, hcontext] at hr
  dsimp only at hr
  split at hr
  · exact error_honest (errorResponse_eq hr)
  · rw [hop] at hr
    dsimp only at hr
    split at hr
    · rename_i response hattempt
      obtain rfl := Option.some.inj hr
      unfold attempt at hattempt
      dsimp only at hattempt
      rw [h.search, hop] at hattempt
      dsimp only at hattempt
      split at hattempt
      · exact error_honest (fail_eq hattempt)
      · split at hattempt
        · exact error_honest (fail_eq hattempt)
        · split at hattempt
          · exact error_honest (fail_eq hattempt)
          · rw [h.result] at hattempt
            exact executeExact_honest (coverage_of_accepted haccepted) hcond hattempt
    · exact error_honest (errorResponse_eq hr)
    · exact error_honest (errorResponse_eq hr)

/-! ## §4 — the results that are published as complete. -/

/-- A worker success without hits, partial for the given reasons, and the message it comes in. -/
def bareSuccess (codes : List Code) : WorkerSuccess where
  id := units "q-1"
  coverage := .incomplete
  reasons := codes
  hits := []
  counts := {}
  policySnapshotHash := List.replicate 64 (unit 'a')
  elapsedMs := .nat 0

def bareMessage (codes : List Code) : Json :=
  objectOf [("v", some (.nat 1)), ("id", some (.str (units "q-1"))),
    ("status", some (.str (units "ok"))), ("coverage", some (.str (units "partial"))),
    ("reasons", some (.arr (codes.map fun c => .str (units (codeName c))))),
    ("matches", some (.arr [])),
    ("counts", some (objectOf [("visited", some (.nat 0)), ("searched", some (.nat 0)),
      ("excluded", some (.nat 0)), ("failed", some (.nat 0)), ("bytesRead", some (.nat 0))])),
    ("elapsedMs", some (.nat 0)),
    ("policySnapshotHash", some (.str (List.replicate 64 (unit 'a')))),
    ("matcherVersion", some (.str MATCHER_VERSION))]

/-- A request it is an answer to. -/
def bareRequest : WorkerRequest where
  id := units "q-1"
  pattern := units "a"
  kind := .literal
  caseSensitive := true
  maxMatches := 10
  maxFileBytes := 1048576
  responseBytes := 65536
  deadlineMs := 10000
  scope := none
  validateScopeOnly := none
  read := none
  maxEntries := 100000
  maxDepth := 64

/-- An exact request for `a`. -/
def bareInput : Json :=
  objectOf [("version", some (.nat 1)), ("requestId", some (.str (units "r"))),
    ("workspaceId", some (.str (units "w"))), ("scopePolicyId", some (.str (units "p"))),
    ("operation", some (.str (units "exact"))),
    ("query", some (objectOf [("kind", some (.str (units "literal"))),
      ("text", some (.str (units "a"))), ("caseSensitive", some (.bool true))])),
    ("maxMatches", some (.nat 10))]

/-- An answer for a registration with the default policy. -/
def bareAnswer (s : WorkerSuccess) : Answer where
  workspaceId := units "w"
  scopePolicyId := units "p"
  policyHash := List.replicate 64 (unit 'b')
  effectivePolicyHash := List.replicate 64 (unit 'c')
  policy := ⟨[], [], false, true, 1048576⟩
  scope := ⟨[[], []], [], false, true⟩
  result := .ok s

/-- The registry answers at once. -/
def bareWorld (s : WorkerSuccess) : World where
  sha256 := Sha256.digest
  dates := ⟨fun _ => units "2026-01-01T00:00:00.000Z", fun _ => true⟩
  clock := fun _ => 0
  date := fun _ => 0
  abortedBefore := false
  abortedAfter := false
  search := fun _ => .answered (bareAnswer s)

/-- The lists of distinct unmapped codes but the empty one. -/
def unmappedLists : List (List Code) :=
  (unmapped.map fun a => [a])
    ++ (unmapped.flatMap fun a => (unmapped.filter (· != a)).map fun b => [a, b])
    ++ unmapped.flatMap fun a => (unmapped.filter (· != a)).flatMap fun b =>
      ((unmapped.filter (· != a)).filter (· != b)).map fun c => [a, b, c]

theorem mem_unmappedLists {codes : List Code} (hne : codes ≠ []) (hnodup : codes.Nodup)
    (hsub : ∀ c ∈ codes, c ∈ unmapped) : codes ∈ unmappedLists := by
  have hlen : codes.length ≤ 3 := (List.subperm_of_subset hnodup hsub).length_le
  have hone : ∀ a ∈ unmapped, [a] ∈ unmappedLists := by decide
  have htwo : ∀ a ∈ unmapped, ∀ b ∈ unmapped, [a, b].Nodup → [a, b] ∈ unmappedLists := by decide
  have hthree : ∀ a ∈ unmapped, ∀ b ∈ unmapped, ∀ c ∈ unmapped, [a, b, c].Nodup →
      [a, b, c] ∈ unmappedLists := by decide
  match codes, hne, hlen with
  | [a], _, _ => exact hone a (hsub a (by simp))
  | [a, b], _, _ => exact htwo a (hsub a (by simp)) b (hsub b (by simp)) hnodup
  | [a, b, c], _, _ =>
      exact hthree a (hsub a (by simp)) b (hsub b (by simp)) c (hsub c (by simp)) hnodup

/-- Whether a response is a complete exact result. -/
def isComplete : Option Response → Bool
  | some (.ok _ _ _ (.exact _ _ .complete _)) => true
  | _ => false

/-- Whether it is an incomplete one. -/
def isPartial : Response → Bool
  | .ok _ _ _ (.exact _ _ (.incomplete _) _) => true
  | _ => false

/-- The reply of the worker that the bare message parses to. -/
def bareReply (codes : List Code) : Success where
  v := 1
  id := ['q', '-', '1']
  coverage := .incomplete
  reasons := codes
  hits := []
  counts := {}
  elapsedMs := .nat 0
  policySnapshotHash := List.replicate 64 'a'
  matcherVersion := Worker.MATCHER

/-- What `parseRequest` makes of the bare input. -/
def bareParsed : Request where
  requestId := units "r"
  workspaceId := units "w"
  scopePolicyId := units "p"
  narrow := none
  operation := .exact .literal (units "a") true 10

/-- The scope and the result of the bare response. -/
def bareScope : EffectiveScope := scope (bareAnswer (bareSuccess [])) (bareSuccess [])

/-- The bare result is complete and has no match. -/
def bareResult : Result := .exact 0 0 .complete []

/-- What the bare input and its response consist of whatever the issues are. -/
theorem bare_closed : parseRequest bareInput = some bareParsed ∧
    encode (List.replicate 64 'a') = List.replicate 64 (unit 'a') ∧
    List.replicate 64 'a' = hex (List.replicate 32 0xaa) ∧
    Client.countsSchema (Worker.Counts.json {}) = some {} ∧ bareScope.json.bulk ≤ 20000 ∧
    (bareResult.json (bareWorld (bareSuccess [])).dates).bulk ≤ 20000 ∧ (Json.nat 1).bulk = 1 ∧
    (isId (units "r") && scopeSchema bareScope) = true := by
  decide +kernel

theorem encode_digest : encode (List.replicate 64 'a') = List.replicate 64 (unit 'a') := bare_closed.2.1

theorem bareReply_json (codes : List Code) : (bareReply codes).json = bareMessage codes := by
  have hcodes : codes.map Code.json = codes.map fun c => .str (units (codeName c)) := by
    refine List.map_congr_left fun c _ => ?_
    cases c <;> rfl
  rw [bareMessage, ← hcodes, ← encode_digest]
  rfl

theorem ofSuccess_bareReply (codes : List Code) :
    WorkerSuccess.ofSuccess (bareReply codes) = bareSuccess codes := by
  rw [bareSuccess, ← encode_digest]
  rfl

theorem readable_bareReply {codes : List Code} (h : codes.length ≤ 3) :
    Client.Readable (bareReply codes) where
  v := rfl
  id := by
    show 1 ≤ (encode ['q', '-', '1']).length ∧ (encode ['q', '-', '1']).length ≤ 128
    decide
  reasons := h.trans (by decide)
  hits := ⟨Nat.zero_le _, fun _ h => by cases h⟩
  counts := by
    show Client.countsSchema (Worker.Counts.json {}) = some {}
    exact bare_closed.2.2.2.1
  snapshot := by
    exact ⟨List.replicate 32 0xaa, List.length_replicate, bare_closed.2.2.1⟩
  elapsed := by
    show Schema.nonNegative (.nat 0) = some (.nat 0)
    rfl
  matcherVersion := rfl

/-- The bare message passes the client's validation. -/
theorem validate_bare {codes : List Code} (hne : codes ≠ []) (hnodup : codes.Nodup)
    (hlen : codes.length ≤ 3) :
    validateWorkerResponse (bareMessage codes) bareRequest 500 = some (.ok (bareSuccess codes)) := by
  have hschema := Client.workerResponseSchema_success (readable_bareReply hlen)
  rw [bareReply_json, ofSuccess_bareReply] at hschema
  have hinvariants : successInvariants bareRequest (bareSuccess codes) = true := by
    have hcoverage : (Coverage.incomplete == Coverage.complete) = codes.isEmpty := by
      cases codes with
      | nil => exact absurd rfl hne
      | cons c rest => rfl
    simp [successInvariants, hcoverage, bareSuccess, bareRequest, hnodup]
  simp only [validateWorkerResponse, hschema]
  rw [if_neg (by simp [WorkerResponse.id, bareSuccess, bareRequest]), if_pos hinvariants]

theorem parseRequest_bare : parseRequest bareInput = some bareParsed := bare_closed.1

/-- Unmapped codes leave no partial reason and no fatal or interrupting issue. -/
theorem issuesOf_unmappedLists : ∀ codes ∈ unmappedLists, partialReasonsOf (issuesOf codes) = [] ∧
    (issuesOf codes).length ≤ 3 ∧ ∀ i ∈ issuesOf codes, i.code ∉ fatalCodes ∧
      i.code ∉ interruptions ∧ issueSchema i = true ∧ i.json.bulk ≤ 1000 := by
  decide +kernel

/-- The response to the bare input, before its checks. -/
def bareResponse (codes : List Code) : Response :=
  exactResponse (bareWorld (bareSuccess codes)) bareParsed (bareAnswer (bareSuccess codes))
    (bareSuccess codes) .literal (issuesOf codes) .complete []

theorem bareResponse_eq (codes : List Code) :
    bareResponse codes = .ok (units "r") bareScope (issuesOf codes) bareResult := rfl

theorem bytes_bareResponse {codes : List Code} (h : codes ∈ unmappedLists) :
    (bareResponse codes).bytes (bareWorld (bareSuccess codes)).dates ≤ 65536 := by
  obtain ⟨-, hlen, hissues⟩ := issuesOf_unmappedLists codes h
  have hitems : ∀ is : List Issue, (∀ i ∈ is, i.json.bulk ≤ 1000) →
      Json.bulkItems (is.map Issue.json) ≤ 1001 * is.length := by
    intro is his
    induction is with
    | nil => exact Nat.le_refl 0
    | cons i is ih =>
        have hi := his i List.mem_cons_self
        have hrest := ih fun j hj => his j (List.mem_cons_of_mem _ hj)
        rw [List.map_cons, Json.bulkItems, List.length_cons]
        omega
  have hbulk := hitems (issuesOf codes) fun i hi => (hissues i hi).2.2.2
  have hnames : ∀ m ∈ [("version", 7), ("requestId", 9), ("status", 6), ("scope", 5), ("issues", 6),
      ("result", 6), ("r", 1), ("ok", 2)], (units m.1).length = m.2 := by decide
  obtain ⟨-, -, -, -, hscope, hresult', hone, -⟩ := bare_closed
  have hresult : (bareResult.json (bareWorld (bareSuccess codes)).dates).bulk ≤ 20000 := hresult'
  refine (Json.size_le_bulk _).trans ?_
  rw [bareResponse_eq]
  show Json.bulk (.obj [(units "version", .nat 1), (units "requestId", .str (units "r")),
    (units "status", .str (units "ok")), (units "scope", bareScope.json),
    (units "issues", .arr ((issuesOf codes).map Issue.json)),
    (units "result", bareResult.json (bareWorld (bareSuccess codes)).dates)]) ≤ 65536
  simp only [List.forall_mem_cons] at hnames
  simp only [Json.bulk, Json.bulkMembers, hnames]
  simp only [Json.bulk] at hone
  omega

/-- The bare response passes `parseResponse`. -/
theorem parseResponse_bare {codes : List Code} (h : codes ∈ unmappedLists) :
    parseResponse (bareWorld (bareSuccess codes)).dates (bareResponse codes) bareParsed
      = some (bareResponse codes) := by
  obtain ⟨-, hlen, hissues⟩ := issuesOf_unmappedLists codes h
  have hbytes := bytes_bareResponse h
  have hschema : responseSchema (bareWorld (bareSuccess codes)).dates (bareResponse codes) = true := by
    have hscope := bare_closed.2.2.2.2.2.2.2
    have hlength : ((issuesOf codes).length ≤ 128) = True := by
      simp only [eq_iff_iff, iff_true]
      omega
    have hall : (issuesOf codes).all issueSchema = true :=
      List.all_eq_true.mpr fun i hi => (hissues i hi).2.2.1
    rw [bareResponse_eq]
    simp only [responseSchema, hscope, hlength, hall]
    rfl
  have hinvariants : responseInvariants
      ((bareResponse codes).bytes (bareWorld (bareSuccess codes)).dates) bareParsed
        (bareResponse codes) = true := by
    have hfatal : (issuesOf codes).any (fun i => fatalCodes.contains i.code) = false := by
      simp only [List.any_eq_false, List.contains_iff_mem]
      exact fun i hi => (hissues i hi).1
    have hinterrupted : (issuesOf codes).any (fun i => interruptions.contains i.code) = false := by
      simp only [List.any_eq_false, List.contains_iff_mem]
      exact fun i hi => (hissues i hi).2.1
    have hcap : decide ((bareResponse codes).bytes (bareWorld (bareSuccess codes)).dates ≤ 1048576)
        = true := decide_eq_true (hbytes.trans (by decide))
    rw [bareResponse_eq] at hcap ⊢
    simp only [responseInvariants, hcap, hfatal]
    simp only [bareResult, resultInvariants, bareParsed, exactInvariants, hinterrupted]
    decide +kernel
  rw [parseResponse, hschema, hinvariants]
  rfl

/-- With unmapped codes only and no failure, the bare success is published as complete. -/
theorem execute_bare {codes : List Code} (h : codes ∈ unmappedLists) :
    execute (bareWorld (bareSuccess codes)) ⟨30000, 1048576⟩ bareInput (.obj [])
      = some (bareResponse codes) := by
  obtain ⟨hnone, -⟩ := issuesOf_unmappedLists codes h
  have hbytes := bytes_bareResponse h
  have hcoverage : coverageOf (partialReasonsOf (issuesOf (bareSuccess codes).reasons)) = .complete :=
    if_pos hnone
  have hfinish : finish (bareWorld (bareSuccess codes)) bareParsed ⟨10000, 65536⟩ 3
      (bareResponse codes) = .ok (bareResponse codes) := by
    rw [finish, if_neg (Nat.not_lt.mpr hbytes), parseResponse_bare h]
    rfl
  have hexact : executeExact (bareWorld (bareSuccess codes)) bareParsed ⟨10000, 65536⟩
      (bareAnswer (bareSuccess codes)) (bareSuccess codes) .literal = .ok (bareResponse codes) := by
    rw [executeExact_of_fits (by rw [hcoverage]; exact hbytes), hcoverage]
    exact hfinish
  have hcontext : contextSchema (.obj []) = some ⟨10000, 65536⟩ := by decide
  have hattempt : attempt (bareWorld (bareSuccess codes)) bareParsed ⟨10000, 65536⟩
      = .ok (bareResponse codes) := by
    have hremaining : (1 : Int) ≤ ((10000 : Nat) * 1000000 - (0 - 0)) / 1000000 := by decide
    have hlate : decide (((10000 : Nat) : Int) * 1000000 ≤ 0 - 0) = false := by decide
    rw [← hexact]
    exact attempt_of_exact hremaining (fun _ => rfl) rfl hlate rfl rfl
  exact execute_of_attempt parseRequest_bare hcontext rfl (fun _ _ h => by cases h) hattempt

/-- The bare success answers the exact request. -/
theorem answered_bare {codes : List Code} (hne : codes ≠ []) (hnodup : codes.Nodup)
    (hlen : codes.length ≤ 3) :
    Answered (bareWorld (bareSuccess codes)) bareInput (.obj []) .literal
      (bareAnswer (bareSuccess codes)) (bareSuccess codes) where
  request := ⟨bareParsed, units "a", true, 10, parseRequest_bare, rfl⟩
  context := by decide
  search := fun _ => rfl
  result := rfl
  accepted := ⟨_, _, _, validate_bare hne hnodup hlen⟩

theorem not_honest_of_isComplete {w : World} {a : Answer} {kind : QueryKind} {s : WorkerSuccess}
    {r : Response} (hs : s.coverage = .incomplete) (hr : isComplete (some r) = true) :
    ¬ Honest w a kind s r := by
  intro h
  unfold isComplete at hr
  split at hr
  · rename_i heq
    obtain rfl := Option.some.inj heq
    obtain ⟨reasons, hcov, -⟩ := h.1 hs
    cases hcov
  · cases hr

/-- **Which partial results are published honestly.** Over all calls, answers and budgets, a success with
the given distinct codes and failed count is published honestly if and only if it has no code, a code
outside the unmapped ones, or a failure. -/
theorem honest_iff (codes : List Code) (failed : Nat) (hnodup : codes.Nodup) :
    (∀ w caps input contextInput kind a s r, Answered w input contextInput kind a s →
        s.reasons = codes → s.counts.failed = failed →
          execute w caps input contextInput = some r → Honest w a kind s r) ↔
      codes = [] ∨ (∃ c ∈ codes, c ∉ unmapped) ∨ failed ≠ 0 := by
  constructor
  · intro h
    by_contra hcond
    simp only [not_or, not_exists, not_and, not_not, ne_eq] at hcond
    obtain ⟨hne, hsub, rfl⟩ := hcond
    have hmem := mem_unmappedLists hne hnodup hsub
    have hlen : codes.length ≤ 3 := (List.subperm_of_subset hnodup hsub).length_le
    have hcomplete : isComplete (some (bareResponse codes)) = true := rfl
    exact not_honest_of_isComplete rfl hcomplete
      (h _ _ _ _ _ _ _ _ (answered_bare hne hnodup hlen) rfl rfl (execute_bare hmem))
  · rintro hcond w caps input contextInput kind a s r hanswered rfl rfl hr
    exact execute_honest hanswered hcond hr

/-- A call whose one reason is `READ_FAILED` is answered with a partial result. -/
theorem honest_readFailed : ∃ r, execute (bareWorld (bareSuccess [.readFailed])) ⟨30000, 1048576⟩ bareInput
      (.obj []) = some r ∧
    Honest (bareWorld (bareSuccess [.readFailed])) (bareAnswer (bareSuccess [.readFailed])) .literal
      (bareSuccess [.readFailed]) r ∧
    isPartial r = true := by
  have hanswered : Answered (bareWorld (bareSuccess [.readFailed])) bareInput (.obj []) .literal
      (bareAnswer (bareSuccess [.readFailed])) (bareSuccess [.readFailed]) :=
    answered_bare (by decide) (by decide) (by decide)
  have hcondition : [Code.readFailed] = [] ∨ (∃ c ∈ [Code.readFailed], c ∉ unmapped) ∨ 0 ≠ 0 :=
    .inr (.inl ⟨.readFailed, by decide, by decide⟩)
  have hmapped : ((execute (bareWorld (bareSuccess [.readFailed])) ⟨30000, 1048576⟩ bareInput
      (.obj [])).map isPartial) = some true := by decide +kernel
  obtain ⟨r, hr, hpublished⟩ := Option.map_eq_some_iff.mp hmapped
  exact ⟨r, hr, (honest_iff [.readFailed] 0 (by decide)).mpr hcondition _ _ _ _ _ _ _ _ hanswered rfl rfl hr,
    hpublished⟩

/-- A partial success whose one reason is `OUT_OF_SCOPE` is published as complete. -/
theorem outOfScope_published_complete :
    Answered (bareWorld (bareSuccess [.outOfScope])) bareInput (.obj []) .literal
        (bareAnswer (bareSuccess [.outOfScope])) (bareSuccess [.outOfScope]) ∧
      (bareSuccess [.outOfScope]).coverage = .incomplete ∧
      isComplete (execute (bareWorld (bareSuccess [.outOfScope])) ⟨30000, 1048576⟩ bareInput
        (.obj [])) = true :=
  ⟨answered_bare (by decide) (by decide) (by decide), rfl, by
    rw [execute_bare (by decide)]
    rfl⟩

end JevGrep.Service
