/-
# `JevGrep.Service.Answers` — every call of `execute` is answered within its contract.

Errors are small and well formed, so the local `error` never throws; what is not an error has passed the
size check and `parseResponse`. §1 requests; §2 errors; §3 the exits of the `try`; §4 `execute`.
-/
import JevGrep.Service.Coverage

namespace JevGrep.Service

open JevGrep.Lib JevGrep.Lib.Schema JevGrep.Lib.Utf16
open JevGrep.Contracts (JsString)
open JevGrep.Worker (QueryKind Code)
open JevGrep.Client (WorkerSuccess WorkerErrorCode objectOf)
open JevGrep.Workspace (Answer WorkspaceErrorCode withDefault)

/-! ## §1 — requests and contexts. -/

theorem isId_of_idSchema {v : Json} {id : JsString} (h : idSchema v = some id) : isId id = true :=
  (Option.filter_eq_some_iff.mp h).2

/-- What the envelope of a request is read from. -/
theorem envelope_ids {members : List (List UInt16 × Json)} {operation : Operation} {r : Request}
    (h : withEnvelope members operation = some r) :
    required members "requestId" idSchema = some r.requestId ∧
      required members "workspaceId" idSchema = some r.workspaceId ∧
      required members "scopePolicyId" idSchema = some r.scopePolicyId ∧
      optional members "narrow" publicNarrow = some r.narrow ∧ r.operation = operation := by
  obtain ⟨_, -, h⟩ := bind_some h
  obtain ⟨requestId, hrequest, h⟩ := bind_some h
  obtain ⟨workspaceId, hworkspace, h⟩ := bind_some h
  obtain ⟨scopePolicyId, hpolicy, h⟩ := bind_some h
  obtain ⟨narrow, hnarrow, h⟩ := bind_some h
  obtain rfl := Option.some.inj h
  exact ⟨hrequest, hworkspace, hpolicy, hnarrow, rfl⟩

theorem members_of_strictObject {names : List String} {v : Json} {members : List (List UInt16 × Json)}
    (h : strictObject names v = some members) : v = .obj members := by
  unfold strictObject at h
  split at h
  · split at h
    · rw [Option.some.inj h]
    · cases h
  · cases h

/-- Every request is an object with an envelope. -/
theorem envelope_of_requestSchema {v : Json} {r : Request} (h : requestSchema v = some r) :
    ∃ members, v = .obj members ∧ withEnvelope members r.operation = some r := by
  have hread : ∀ {members operation}, readFields members operation = some r →
      withEnvelope members r.operation = some r := by
    intro members operation h
    obtain ⟨path, -, h⟩ := bind_some h
    obtain ⟨range, -, h⟩ := bind_some h
    obtain ⟨byteBudget, -, h⟩ := bind_some h
    rwa [(envelope_ids h).2.2.2.2]
  rcases orElse_some h with h | h
  · obtain ⟨members, hmembers, h⟩ := bind_some h
    obtain ⟨_, -, h⟩ := bind_some h
    obtain ⟨query, -, h⟩ := bind_some h
    obtain ⟨maxMatches, -, h⟩ := bind_some h
    refine ⟨members, members_of_strictObject hmembers, ?_⟩
    rwa [(envelope_ids h).2.2.2.2]
  · rcases orElse_some h with h | h
    · obtain ⟨members, hmembers, h⟩ := bind_some h
      obtain ⟨_, -, h⟩ := bind_some h
      obtain ⟨question, -, h⟩ := bind_some h
      obtain ⟨anchors, -, h⟩ := bind_some h
      obtain ⟨_, -, h⟩ := bind_some h
      obtain ⟨_, -, h⟩ := bind_some h
      refine ⟨members, members_of_strictObject hmembers, ?_⟩
      rwa [(envelope_ids h).2.2.2.2]
    · rcases orElse_some h with h | h
      · obtain ⟨members, hmembers, h⟩ := bind_some h
        obtain ⟨_, -, h⟩ := bind_some h
        obtain ⟨digest, -, h⟩ := bind_some h
        exact ⟨members, members_of_strictObject hmembers, hread h⟩
      · obtain ⟨members, hmembers, h⟩ := bind_some h
        obtain ⟨_, -, h⟩ := bind_some h
        exact ⟨members, members_of_strictObject hmembers, hread h⟩

/-- An accepted request has the id that an unreadable one would be answered with. -/
theorem requestId_of_parsed {input : Json} {r : Request} (h : parseRequest input = some r) :
    isId r.requestId = true ∧ r.requestId = candidateId input := by
  obtain ⟨members, rfl, henvelope⟩ :=
    envelope_of_requestSchema (Option.filter_eq_some_iff.mp h).1
  have hid : required members "requestId" idSchema = some r.requestId := (envelope_ids henvelope).1
  obtain ⟨v, -, hv⟩ := bind_some hid
  refine ⟨isId_of_idSchema hv, ?_⟩
  have hbind : (lookup members "requestId").bind idSchema = some r.requestId := hid
  rw [candidateId, hbind]
  rfl

theorem isId_candidateId (input : Json) : isId (candidateId input) = true := by
  have hinvalid : isId (units "invalid") = true := by decide
  unfold candidateId
  split
  · rename_i members
    cases h : (lookup members "requestId").bind idSchema with
    | none => exact hinvalid
    | some id =>
        obtain ⟨v, -, hv⟩ := bind_some h
        exact isId_of_idSchema hv
  · exact hinvalid

/-- The deployment caps of the constructor: numbers, then the bounds of a context. -/
def number : Json → Option Json
  | .nat n => some (.nat n)
  | .real token => some (.real token)
  | _ => none

/-- The schema of the constructor's caps. -/
def deploymentCaps (v : Json) : Option Context := do
  let o ← strictObject ["deadlineMs", "responseBytes"] v
  let deadlineMs ← withDefault o "deadlineMs" (.nat 30000) number
  let responseBytes ← withDefault o "responseBytes" (.nat 1048576) number
  contextSchema (objectOf [("deadlineMs", some deadlineMs), ("responseBytes", some responseBytes)])

theorem le_of_withDefault {members : List (List UInt16 × Json)} {name : String}
    {default least most n : Nat} (hdefault : least ≤ default ∧ default ≤ most)
    (h : withDefault members name default (int least most) = some n) : least ≤ n ∧ n ≤ most := by
  unfold withDefault Schema.optional at h
  split at h
  · obtain rfl := Option.some.inj h
    exact hdefault
  · rename_i v _
    obtain ⟨value, hvalue, rfl⟩ := Option.map_eq_some_iff.mp h
    obtain ⟨m, hm, rfl⟩ := Option.map_eq_some_iff.mp hvalue
    unfold int at hm
    split at hm
    · split at hm
      · rename_i hbounds
        simp only [Bool.and_eq_true, decide_eq_true_eq] at hbounds
        obtain rfl := Option.some.inj hm
        exact hbounds.1
      · cases hm
    · cases hm

theorem bounds_of_contextSchema {v : Json} {context : Context} (h : contextSchema v = some context) :
    2048 ≤ context.responseBytes ∧ context.responseBytes ≤ 1048576 := by
  obtain ⟨members, -, h⟩ := bind_some h
  obtain ⟨deadlineMs, -, h⟩ := bind_some h
  obtain ⟨responseBytes, hbytes, h⟩ := bind_some h
  obtain rfl := Option.some.inj h
  exact le_of_withDefault (by decide) hbytes

theorem bounds_of_deploymentCaps {v : Json} {caps : Context} (h : deploymentCaps v = some caps) :
    2048 ≤ caps.responseBytes ∧ caps.responseBytes ≤ 1048576 := by
  obtain ⟨members, -, h⟩ := bind_some h
  obtain ⟨deadlineMs, -, h⟩ := bind_some h
  obtain ⟨responseBytes, -, h⟩ := bind_some h
  exact bounds_of_contextSchema h

/-! ## §2 — errors. -/

theorem bulk_issueOf (code : IssueCode) : (issueOf code).json.bulk ≤ 700 := by
  cases code <;> decide +kernel

theorem issueSchema_issueOf (code : IssueCode) : issueSchema (issueOf code) = true := by
  cases code <;> decide +kernel

/-- An issue of the service is never an invitation to retry. -/
theorem issueOf_no_retry (code : IssueCode) : ((issueOf code).code == .cancelled
    && !(!(issueOf code).retryable && (issueOf code).nextAction == .none)) = false := by
  cases code <;> rfl

theorem length_of_isId {id : JsString} (h : isId id = true) : id.length ≤ 128 := by
  simp only [isId, Bool.and_eq_true, decide_eq_true_eq] at h
  exact h.1.1.2

/-- **An error fits any budget.** -/
theorem bytes_error_le (d : Dates) {id : JsString} {i : Issue} (hid : isId id = true)
    (hi : i.json.bulk ≤ 700) : (Response.error id i).bytes d ≤ 2048 := by
  have hlength := length_of_isId hid
  have hnames : ∀ m ∈ [("version", 7), ("requestId", 9), ("status", 6), ("error", 5)],
      (units m.1).length = m.2 := by decide
  have hone : (Json.nat 1).bulk = 1 := by decide +kernel
  refine (Json.size_le_bulk _).trans ?_
  show Json.bulk (.obj [(units "version", .nat 1), (units "requestId", .str id),
    (units "status", .str (units "error")), (units "error", i.json)]) ≤ 2048
  simp only [List.forall_mem_cons] at hnames
  simp only [Json.bulk] at hone
  simp only [Json.bulk, Json.bulkMembers, hnames, hone]
  omega

/-- What every response to a request meets: the schema, the budget and the rules across fields. -/
structure Conforms (d : Dates) (request : Request) (budget : Nat) (r : Response) : Prop where
  schema : responseSchema d r = true
  bytes : r.bytes d ≤ budget
  invariants : responseInvariants (r.bytes d) request r = true

/-- An error with an issue of the service conforms. -/
theorem conforms_error {d : Dates} {request : Request} {budget : Nat} {i : Issue}
    (hid : isId request.requestId = true) (hbudget : 2048 ≤ budget) (hbulk : i.json.bulk ≤ 700)
    (hschema : issueSchema i = true)
    (hretry : (i.code == .cancelled && !(!i.retryable && i.nextAction == .none)) = false) :
    Conforms d request budget (.error request.requestId i) := by
  have hbytes := bytes_error_le d hid hbulk
  refine ⟨?_, hbytes.trans hbudget, ?_⟩
  · rw [responseSchema, hid, hschema]
    rfl
  · have hcap : decide ((Response.error request.requestId i).bytes d ≤ 1048576) = true :=
      decide_eq_true (hbytes.trans (by decide))
    rw [responseInvariants, hcap, hretry, beq_self_eq_true]
    rfl

section Execute

variable {w : World} {request : Request} {context : Context} {r : Response}

/-- **The local `error` never throws.** -/
theorem errorResponse_eq_some (hid : isId request.requestId = true) (code : String) :
    errorResponse w request code = some (.error request.requestId (issue code)) := by
  have h := conforms_error (d := w.dates) hid (Nat.le_refl 2048) (bulk_issueOf (mapped code))
    (issueSchema_issueOf _) (issueOf_no_retry _)
  unfold errorResponse parseResponse
  exact if_pos (Bool.and_eq_true_iff.mpr ⟨h.schema, h.invariants⟩)

theorem conforms_issue {d : Dates} {budget : Nat} (hid : isId request.requestId = true)
    (hbudget : 2048 ≤ budget) (code : String) :
    Conforms d request budget (.error request.requestId (issue code)) :=
  conforms_error hid hbudget (bulk_issueOf _) (issueSchema_issueOf _) (issueOf_no_retry _)

/-! ## §3 — the exits of the `try`. -/

theorem fail_conforms (hid : isId request.requestId = true) (hbudget : 2048 ≤ context.responseBytes)
    {code : String} (h : fail w request code = .ok r) :
    Conforms w.dates request context.responseBytes r := by
  rw [fail, errorResponse_eq_some hid] at h
  obtain rfl := Except.ok.inj h
  exact conforms_issue hid hbudget code

theorem finish_conforms (hid : isId request.requestId = true)
    (hbudget : 2048 ≤ context.responseBytes) {reading : Nat} {response : Response}
    (h : finish w request context reading response = .ok r) :
    Conforms w.dates request context.responseBytes r := by
  unfold finish at h
  split at h
  · exact fail_conforms hid hbudget h
  · rename_i hfits
    split at h
    · cases h
    · rename_i validated hv
      split at h
      · exact fail_conforms hid hbudget h
      · obtain rfl := Except.ok.inj h
        unfold parseResponse at hv
        split at hv
        · rename_i hchecks
          rw [Bool.and_eq_true] at hchecks
          obtain rfl := Option.some.inj hv
          exact ⟨hchecks.1, Nat.not_lt.mp hfits, hchecks.2⟩
        · cases hv

theorem executeExact_conforms (hid : isId request.requestId = true)
    (hbudget : 2048 ≤ context.responseBytes) {a : Answer} {s : WorkerSuccess} {kind : QueryKind}
    (h : executeExact w request context a s kind = .ok r) :
    Conforms w.dates request context.responseBytes r := by
  unfold executeExact at h
  dsimp only at h
  split at h
  · split at h
    · exact fail_conforms hid hbudget h
    · exact finish_conforms hid hbudget h
  · exact finish_conforms hid hbudget h

theorem executeRead_conforms (hid : isId request.requestId = true)
    (hbudget : 2048 ≤ context.responseBytes) {a : Answer} {s : WorkerSuccess}
    {operation : ReadOperation} (h : executeRead w request context a s operation = .ok r) :
    Conforms w.dates request context.responseBytes r := by
  unfold executeRead at h
  split at h
  · exact fail_conforms hid hbudget h
  · exact finish_conforms hid hbudget h

/-- **Whatever the `try` returns conforms**: every exit is an error or has passed the checks. -/
theorem attempt_conforms (hid : isId request.requestId = true)
    (hbudget : 2048 ≤ context.responseBytes) (h : attempt w request context = .ok r) :
    Conforms w.dates request context.responseBytes r := by
  unfold attempt at h
  dsimp only at h
  split at h
  · exact fail_conforms hid hbudget h
  · split at h
    · cases h
    · cases h
    · cases h
    · split at h
      · exact fail_conforms hid hbudget h
      · split at h
        · exact fail_conforms hid hbudget h
        · split at h
          · exact fail_conforms hid hbudget h
          · split at h
            · exact executeExact_conforms hid hbudget h
            · exact executeRead_conforms hid hbudget h
            · cases h

end Execute

/-! ## §4 — `execute`. -/

/-- The `requestId` of both branches. -/
def Response.requestId : Response → JsString
  | .error requestId _ => requestId
  | .ok requestId .. => requestId

/-- Whether the status is `ok`. -/
def Response.isOk : Response → Bool
  | .error .. => false
  | .ok .. => true

/-- The input has a valid request id. -/
def HasId (input : Json) (id : JsString) : Prop :=
  ∃ members v, input = .obj members ∧ lookup members "requestId" = some v ∧ idSchema v = some id

theorem candidateId_of_hasId {input : Json} {id : JsString} (h : HasId input id) :
    candidateId input = id := by
  obtain ⟨members, v, rfl, hlookup, hid⟩ := h
  have hbind : (lookup members "requestId").bind idSchema = some id := some_bind hlookup hid
  rw [candidateId, hbind]
  rfl

theorem candidateId_of_none {input : Json} (h : ∀ id, ¬ HasId input id) :
    candidateId input = units "invalid" := by
  unfold candidateId
  split
  · rename_i members
    cases hbind : (lookup members "requestId").bind idSchema with
    | none => rfl
    | some id =>
        obtain ⟨v, hlookup, hid⟩ := bind_some hbind
        exact absurd ⟨members, v, rfl, hlookup, hid⟩ (h id)
  · rfl

/-- The effective `responseBytes`: of the context lowered to the caps, and 2048 where there is none. -/
def effectiveBytes (caps : Context) (contextInput : Json) : Nat :=
  match contextSchema contextInput with
  | some context => (context.lower caps).responseBytes
  | none => 2048

/-- A conforming response to an accepted request. -/
theorem execute_conforms {w : World} {caps context : Context} {input contextInput : Json}
    {request : Request} (hcaps : 2048 ≤ caps.responseBytes) (hrequest : parseRequest input = some request)
    (hcontext : contextSchema contextInput = some context) :
    ∃ r, execute w caps input contextInput = some r ∧
      Conforms w.dates request (context.lower caps).responseBytes r := by
  have hid := (requestId_of_parsed hrequest).1
  have hbudget : 2048 ≤ (context.lower caps).responseBytes :=
    Nat.le_min.mpr ⟨(bounds_of_contextSchema hcontext).1, hcaps⟩
  have herror : ∀ code, ∃ r, errorResponse w request code = some r ∧
      Conforms w.dates request (context.lower caps).responseBytes r := fun code =>
    ⟨_, errorResponse_eq_some hid code, conforms_issue hid hbudget code⟩
  unfold execute
  rw [hrequest, hcontext]
  dsimp only
  split
  · exact herror "CANCELLED"
  · split
    · refine ⟨_, rfl, conforms_error hid hbudget ?_ ?_ ?_⟩ <;> decide +kernel
    · cases hattempt : attempt w request (context.lower caps) with
      | ok response => exact ⟨response, rfl, attempt_conforms hid hbudget hattempt⟩
      | error thrown =>
          cases thrown with
          | coded code => exact herror code
          | other => exact herror "UNAVAILABLE"

theorem requestId_of_conforms {d : Dates} {request : Request} {budget : Nat} {r : Response}
    (h : Conforms d request budget r) : r.requestId = request.requestId := by
  have hinvariants := h.invariants
  cases r with
  | error id i =>
      simp only [responseInvariants, Bool.and_eq_true, beq_iff_eq] at hinvariants
      exact hinvariants.1.1
  | ok id scope issues result =>
      simp only [responseInvariants, Bool.and_eq_true, beq_iff_eq] at hinvariants
      exact hinvariants.1.1.1.1.1.1

/-- **Every call is answered within its contract**: whatever the input, the context, the caps, the clock
and the answer of the registry are. -/
theorem execute_answers (w : World) {capsInput : Json} {caps : Context}
    (hcaps : deploymentCaps capsInput = some caps) (input contextInput : Json) :
    ∃ r, execute w caps input contextInput = some r ∧ responseSchema w.dates r = true ∧
      (∀ id, HasId input id → r.requestId = id) ∧
      ((∀ id, ¬ HasId input id) → r.requestId = units "invalid") ∧
      r.bytes w.dates ≤ effectiveBytes caps contextInput ∧
      (r.isOk = true → ∃ request, parseRequest input = some request ∧
        responseInvariants (r.bytes w.dates) request r = true) := by
  have hcap := (bounds_of_deploymentCaps hcaps).1
  have hunreadable : parseRequest input = none ∨ contextSchema contextInput = none →
      ∃ r, execute w caps input contextInput = some r ∧ r.isOk = false ∧
        responseSchema w.dates r = true ∧ r.requestId = candidateId input ∧
          r.bytes w.dates ≤ 2048 := by
    intro hnone
    have hid := isId_candidateId input
    refine ⟨.error (candidateId input) (issue (rejection input)), ?_, rfl, ?_, rfl,
      bytes_error_le w.dates hid (bulk_issueOf _)⟩
    · unfold execute
      rcases hnone with hnone | hnone
      · rw [hnone]
      · rw [hnone]
        cases parseRequest input <;> rfl
    · rw [responseSchema, hid]
      exact issueSchema_issueOf _
  -- an error fits into the smallest budget
  have heffective : 2048 ≤ effectiveBytes caps contextInput := by
    unfold effectiveBytes
    split
    · rename_i context hcontext
      exact Nat.le_min.mpr ⟨(bounds_of_contextSchema hcontext).1, hcap⟩
    · exact Nat.le_refl 2048
  have hids : ∀ {r : Response}, r.requestId = candidateId input →
      (∀ id, HasId input id → r.requestId = id) ∧
        ((∀ id, ¬ HasId input id) → r.requestId = units "invalid") := fun heq =>
    ⟨fun id hid => heq.trans (candidateId_of_hasId hid), fun hnone => heq.trans (candidateId_of_none hnone)⟩
  cases hrequest : parseRequest input with
  | none =>
      obtain ⟨r, hr, hok, hschema, hid, hbytes⟩ := hunreadable (.inl hrequest)
      refine ⟨r, hr, hschema, (hids hid).1, (hids hid).2, hbytes.trans heffective, fun h => ?_⟩
      rw [hok] at h
      cases h
  | some request =>
      cases hcontext : contextSchema contextInput with
      | none =>
          obtain ⟨r, hr, hok, hschema, hid, hbytes⟩ := hunreadable (.inr hcontext)
          refine ⟨r, hr, hschema, (hids hid).1, (hids hid).2, hbytes.trans heffective, fun h => ?_⟩
          rw [hok] at h
          cases h
      | some context =>
          obtain ⟨r, hr, hconforms⟩ := execute_conforms (w := w) hcap hrequest hcontext
          have hid : r.requestId = candidateId input :=
            (requestId_of_conforms hconforms).trans (requestId_of_parsed hrequest).2
          have hbytes : r.bytes w.dates ≤ effectiveBytes caps contextInput := by
            rw [effectiveBytes, hcontext]
            exact hconforms.bytes
          exact ⟨r, hr, hconforms.schema, (hids hid).1, (hids hid).2, hbytes,
            fun _ => ⟨request, rfl, hconforms.invariants⟩⟩

/-- A file with three lines, and a worker success with a match on each of them. -/
def threeLines : Worker.Bytes := Utf8.encode "a\nab\na\n".toList

/-- A success with three hits. -/
def threeHits : WorkerSuccess :=
  { bareSuccess [] with
    coverage := .complete
    hits := (Worker.fileHits Worker.Engine.plain (Worker.literalMatches (Utf8.encode ['a']) 0 0) ['a']
      threeLines).map .ofHit }

/-- Input without an id, and an exact request that is answered with the three matches. -/
theorem execute_answers_threeHits : deploymentCaps (.obj []) = some ⟨30000, 1048576⟩ ∧
    (∃ r, execute (bareWorld threeHits) ⟨30000, 1048576⟩ .null .null = some r ∧
      r.requestId = units "invalid") ∧
    ∃ r, execute (bareWorld threeHits) ⟨30000, 1048576⟩ bareInput (.obj []) = some r ∧ r.isOk = true ∧
      r.requestId = units "r" ∧ responseSchema (bareWorld threeHits).dates r = true ∧
      r.bytes (bareWorld threeHits).dates ≤ 65536 ∧
      responseInvariants (r.bytes (bareWorld threeHits).dates) bareParsed r = true := by
  have hcaps : deploymentCaps (.obj []) = some ⟨30000, 1048576⟩ := by decide
  refine ⟨hcaps, ?_, ?_⟩
  · obtain ⟨r, hr, -, -, hinvalid, -⟩ := execute_answers (bareWorld threeHits) hcaps .null .null
    refine ⟨r, hr, hinvalid ?_⟩
    rintro id ⟨members, v, h, -⟩
    cases h
  · obtain ⟨r, hr, hschema, hid, -, hbytes, hinvariants⟩ :=
      execute_answers (bareWorld threeHits) hcaps bareInput (.obj [])
    have hanswered : (execute (bareWorld threeHits) ⟨30000, 1048576⟩ bareInput (.obj [])).map Response.isOk
        = some true := by decide +kernel
    rw [hr] at hanswered
    have hok : r.isOk = true := Option.some.inj hanswered
    obtain ⟨request, hrequest, hcross⟩ := hinvariants hok
    obtain rfl : bareParsed = request := Option.some.inj (parseRequest_bare.symm.trans hrequest)
    exact ⟨r, hr, hok, hid (units "r") ⟨_, _, rfl, rfl, by decide⟩, hschema, hbytes, hcross⟩

end JevGrep.Service
