/-
# `JevGrep.Service.Reread` — reads agree with a complete exact search.

An exact search under a policy and a narrowing is complete. Then the files that it has counted are those that a
read under the same policy and narrowing succeeds for, and each of its hits is read again with the evidence that it
came with (`exact_reads_agree`). The two calls are calls of their own, before or behind each other, with whatever
the registry has met before each of them.

* §1 what the worker answers; §2 what is behind a complete response; §3 a second call; §4 agreement.
-/
import JevGrep.Worker.Eligible
import JevGrep.Service.Sizes

namespace JevGrep.Service

open JevGrep.Lib JevGrep.Lib.Schema
open JevGrep.Lib.Utf16 (encode encode_injective)
open JevGrep.Contracts (JsString)
open JevGrep.Worker (Bytes Engine FRAME_CAP Success)
open JevGrep.Workspace (Registry SearchRequest)
open JevGrep.Client (WorkerSuccess requestBody)

/-! ## §1 — what the worker answers. -/

/-- A range that lies inside a text, on boundaries of its characters. -/
structure Inside (bytes : Bytes) (range : Worker.Range) : Prop where
  stop : range.stop ≤ bytes.length
  first : Worker.isCharBoundary bytes range.start = true
  last : Worker.isCharBoundary bytes range.stop = true

/-- Room for a hit: in the reply of the worker, which sets 2048 bytes aside, and in the public response, next to
the scope. -/
structure Room (shown : EffectiveScope) (hit : Worker.Hit) (responseBytes : Nat) : Prop where
  reply : 2048 + hit.size ≤ responseBytes
  response : 400 + Json.size shown.json + hit.size ≤ responseBytes

theorem readAnswer_ok_iff {engine : Engine} {t : Worker.Request} {read : Worker.ReadRequest} {bytes : Bytes}
    {hits : List Worker.Hit} : Worker.readAnswer engine t read bytes = .ok hits ↔
      (∀ digest, read.expectedFileSha256 = some digest → digest = Worker.hex (engine.sha256 bytes)) ∧
        Inside bytes read.range ∧ 2048 + (Worker.readHitOf engine read bytes).size ≤ t.responseBytes ∧
          hits = [Worker.readHitOf engine read bytes] := by
  have hexpected : (read.expectedFileSha256.any (· ≠ Worker.hex (engine.sha256 bytes))) = true ↔
      ¬∀ digest, read.expectedFileSha256 = some digest → digest = Worker.hex (engine.sha256 bytes) := by
    cases read.expectedFileSha256 <;> simp
  have hinside : (decide (read.range.stop > bytes.length) || !Worker.isCharBoundary bytes read.range.start
      || !Worker.isCharBoundary bytes read.range.stop) = true ↔ ¬Inside bytes read.range := by
    constructor
    · intro hbad hin
      simp [Nat.not_lt.2 hin.stop, hin.first, hin.last] at hbad
    · intro hnot
      by_contra hgood
      simp only [gt_iff_lt, Bool.or_eq_true, decide_eq_true_eq, Bool.not_eq_true', not_or, not_lt,
        Bool.not_eq_false] at hgood
      exact hnot ⟨hgood.1.1, hgood.1.2, hgood.2⟩
  unfold Worker.readAnswer
  split
  · rename_i hwrong
    exact ⟨fun h => (by cases h), fun h => absurd h.1 (hexpected.1 hwrong)⟩
  · rename_i hright
    have hright := not_not.1 (mt hexpected.2 hright)
    split
    · rename_i hbad
      exact ⟨fun h => (by cases h), fun h => absurd h.2.1 (hinside.1 hbad)⟩
    · rename_i hgood
      have hgood := not_not.1 (mt hinside.2 hgood)
      split
      · rename_i hlong
        exact ⟨fun h => (by cases h), fun h => absurd h.2.2.1 (Nat.not_le.2 hlong)⟩
      · rename_i hshort
        exact ⟨fun h => ⟨hright, hgood, Nat.not_lt.1 hshort, (Except.ok.inj h).symm⟩,
          fun h => congrArg Except.ok h.2.2.2.symm⟩

/-- The hit of a range of a file. -/
abbrev hitIn (engine : Engine) (file : Worker.Str × Bytes) (range : Worker.Range) : Worker.Hit :=
  Worker.readHit file.1 (Worker.hex (engine.sha256 file.2)) file.2 range

/-- A response that is ok. -/
def Succeeds (response : Option Response) : Prop :=
  ∃ id shown issues result, response = some (.ok id shown issues result)

theorem size_le_chargeOf {hit : Worker.Hit} : ∀ {hits : List Worker.Hit}, hit ∈ hits → hit.size ≤ Worker.chargeOf hits
  | first :: rest, h => by
      rw [Worker.chargeOf]
      rcases List.mem_cons.1 h with rfl | h
      · exact Nat.le_add_right _ _
      · exact (size_le_chargeOf h).trans (Nat.le_add_left _ _)

/-! ## §2 — what is behind a complete response. -/

section Found

variable {σ φ : Type} {site : Site σ φ} {visit visit' : Visit σ} {entry : Workspace.Entry}
  {slot slot' : Workspace.RootWorker} {listed : List (Worker.DirName × Worker.Node)} {request request' : Request}
  {context context' caps' : Context} {r : SearchRequest} {t : Worker.Request} {success : Success}
  {compiled : Worker.Scope}

/-- The answer that a success of the worker comes back in. -/
abbrev answerFor (site : Site σ φ) (entry : Workspace.Entry) (slot : Workspace.RootWorker) (r : SearchRequest)
    (success : Success) : Workspace.Answer :=
  Registry.answerOf site.host (searchOf site entry slot r) (.ok (.ofSuccess success))

/-- What is behind an exact response that is complete. -/
structure Found (site : Site σ φ) (visit : Visit σ) (entry : Workspace.Entry) (slot : Workspace.RootWorker)
    (listed : List (Worker.DirName × Worker.Node)) (request : Request) (context : Context) (r : SearchRequest)
    (t : Worker.Request) (success : Success) (compiled : Worker.Scope) : Prop where
  calm : Calm site visit request.workspaceId context entry slot
  traced : Traced site visit entry slot request context r t
  plain : r.read = none
  compiles : Worker.Scope.new site.engine t.scope = .ok compiled
  ran : ∃ w', Worker.search site.engine site.os site.root t ⟨visit.searching, []⟩ = (.ok success, w')
  whole : ∃ matcher, Worker.Whole site.engine matcher compiled.toFilter t (.dir listed) ∧
    success.timeless = Worker.wholeAnswer site.engine matcher compiled.toFilter t (.dir listed)

namespace Found

theorem same (h : Found site visit entry slot listed request context r t success compiled) :
    Client.SameRequest (sentOf (nextOf slot) entry.registration.policy r) (writtenMs site visit entry slot context) t :=
  h.traced.same h.calm

theorem noRead (h : Found site visit entry slot listed request context r t success compiled) : t.read = none := by
  have hmap := h.same.read
  rw [show (sentOf (nextOf slot) entry.registration.policy r).read = none from h.plain, Option.map_eq_none_iff] at hmap
  exact hmap

theorem scanned (h : Found site visit entry slot listed request context r t success compiled) :
    t.validateScopeOnly = false := h.same.validateScopeOnly

/-- The files that were searched are the eligible ones. -/
theorem files (h : Found site visit entry slot listed request context r t success compiled) :
    Worker.filesOf (Worker.planOf site.engine compiled t (.dir listed))
      = Worker.eligibleFiles site.engine compiled t (.dir listed) := by
  obtain ⟨matcher, hwhole, -⟩ := h.whole
  exact Worker.filesOf_of_whole h.noRead h.scanned hwhole

/-- A file that was searched is one that can be read whole. -/
theorem plainFile (h : Found site visit entry slot listed request context r t success compiled)
    {file : Worker.Str × Bytes} (hfile : file ∈ Worker.eligibleFiles site.engine compiled t (.dir listed)) :
    Worker.Plain entry.registration.policy.maxFileBytes file := by
  rw [← show t.maxFileBytes = entry.registration.policy.maxFileBytes from h.same.maxFileBytes]
  exact Worker.plain_of_eligible (.dir listed) [] (fun _ h => by cases h) file hfile

/-- A hit of a search comes from a range of a file that it has searched. -/
theorem source (h : Found site visit entry slot listed request context r t success compiled)
    {hit : Worker.Hit} (hhit : hit ∈ success.hits) (hlength : hit.range.stop - hit.range.start ≤ 4096) :
    ∃ bytes, (hit.path, bytes) ∈ Worker.eligibleFiles site.engine compiled t (.dir listed) ∧ Inside bytes hit.range ∧
      hit = Worker.readHit hit.path (Worker.hex (site.engine.sha256 bytes)) bytes hit.range := by
  obtain ⟨matcher, hwhole, htimeless⟩ := h.whole
  have hwholeHit : hit ∈ (Worker.wholeAnswer site.engine matcher compiled.toFilter t (.dir listed)).hits := by
    rw [← htimeless]
    exact hhit
  -- the read without a digest that has just the room for it
  have hread := @Worker.readAnswer_hit site.engine matcher t { t with responseBytes := 2048 + hit.size }
    ⟨hit.path, hit.range, none⟩ compiled (.dir listed) h.scanned hwhole hit hwholeHit hlength rfl rfl
    (fun _ hnone => by cases hnone) (Nat.le_refl _)
  obtain ⟨bytes, hmem, hanswer⟩ := hread
  obtain ⟨-, hinside, -, hsame⟩ := readAnswer_ok_iff.1 hanswer
  rw [h.files] at hmem
  exact ⟨bytes, hmem, hinside, (List.cons.inj hsame).1⟩

theorem ordered (h : Found site visit entry slot listed request context r t success compiled)
    (hregular : Client.Regular site.engine) {hit : Worker.Hit} (hhit : hit ∈ success.hits) :
    hit.range.start ≤ hit.range.stop := by
  obtain ⟨w', hrun⟩ := h.ran
  obtain ⟨matcher, deadline, hmatcher, hpromised⟩ := Worker.search_promised hrun
  obtain ⟨_, _, hchecked, -⟩ := Worker.search_ok hrun
  have hvalid : Worker.Valid t := Worker.validate_ok hchecked
  obtain ⟨bytes, hcut, -⟩ := Client.exists_wellCut hregular hvalid hmatcher hpromised hhit
  exact hcut.range.ordered

/-- There is room for each hit of a complete response in the context that it came back in. -/
theorem room (hplatform : Platform site)
    (h : Found site visit entry slot listed request context r t success compiled) {kind : Worker.QueryKind}
    {id : JsString} {startedAt endedAt : Nat}
    (hfits : (Response.ok id (scope (answerFor site entry slot r success) (.ofSuccess success)) []
      (.exact startedAt endedAt .complete ((WorkerSuccess.ofSuccess success).hits.map
        (published (site.world visit) (answerFor site entry slot r success) kind)))).bytes site.dates
          ≤ context.responseBytes) {hit : Worker.Hit} (hhit : hit ∈ success.hits) :
    Room (scope (answerFor site entry slot r success) (.ofSuccess success)) hit context.responseBytes := by
  obtain ⟨w', hrun⟩ := h.ran
  obtain ⟨matcher, deadline, -, hpromised⟩ := Worker.search_promised hrun
  constructor
  · have hcharged : 2048 + Worker.chargeOf success.hits ≤ t.responseBytes := hpromised.charged h.noRead
    have hresponse : t.responseBytes = context.responseBytes :=
      h.same.responseBytes.trans (searchedAs_of_searchInput h.traced.read).responseBytes
    have hone := size_le_chargeOf hhit
    omega
  · have hmem : published (site.world visit) (answerFor site entry slot r success) kind (.ofHit hit)
        ∈ (WorkerSuccess.ofSuccess success).hits.map
          (published (site.world visit) (answerFor site entry slot r success) kind) :=
      List.mem_map_of_mem (List.mem_map_of_mem hhit)
    have hbytes := (bytes_exact_ge (fun n => (hplatform.iso n).1) hmem).trans hfits
    have hmatch := size_match_le (site.world visit) (answerFor site entry slot r success) kind (.ofHit hit)
    have hevidence : Json.size (evidence (site.world visit).sha256 (answerFor site entry slot r success)
        (.ofHit hit)).json = 72 + Json.size hit.json := size_evidence hplatform.sha256 _ _
    have hsize : hit.size = Json.size hit.json + 1 := rfl
    omega

end Found

/-- **What is behind a complete exact response.** -/
theorem found_of_complete (st : Worker.Static site.os (.dir listed) site.root)
    (hdistinct : Worker.Node.Distinct (.dir listed)) (hplatform : Platform site) {caps context₀ : Context}
    {input contextInput : Json} (hcalm : Calm site visit request.workspaceId (context₀.lower caps) entry slot)
    (hrequest : parseRequest input = some request) (hcontext : contextSchema contextInput = some context₀)
    {id : JsString} {shown : EffectiveScope} {issues : List Issue} {startedAt endedAt : Nat} {hits : List ExactMatch}
    (h : execute (site.world visit) caps input contextInput
      = some (.ok id shown issues (.exact startedAt endedAt .complete hits))) :
    ∃ r t success compiled kind, Found site visit entry slot listed request (context₀.lower caps) r t success compiled ∧
      shown = scope (answerFor site entry slot r success) (.ofSuccess success) ∧ issues = [] ∧
      hits = (WorkerSuccess.ofSuccess success).hits.map
        (published (site.world visit) (answerFor site entry slot r success) kind) ∧
      (Response.ok id shown [] (.exact startedAt endedAt .complete hits)).bytes site.dates
        ≤ (context₀.lower caps).responseBytes := by
  obtain ⟨r, t, success, w', ws, htraced, hrun, hvalidated, -, hcontinued⟩ :=
    traced_of_ok hcalm hrequest hcontext h
  obtain ⟨kind, query, caseSensitive, maxMatches, hoperation⟩ := exact_of_continued hcontinued
  have hplain : r.read = none := (htraced.readAs.exact _ _ _ _ hoperation).1
  have hsame := htraced.same hcalm
  have hread : t.read = none := by
    have hmap := hsame.read
    rw [show (sentOf (nextOf slot) entry.registration.policy r).read = none from hplain, Option.map_eq_none_iff] at hmap
    exact hmap
  obtain rfl := ofSuccess_of_validated hplatform.regular hread hrun hvalidated
  have hserved := served_of_traced hcalm htraced hrun
  obtain ⟨hreasons, hfull, hfits⟩ := whole_of_complete (hserved.received hplatform.regular).codes hoperation hcontinued
  -- the worker's run was complete, too
  obtain ⟨matcher', deadline, -, hpromised⟩ := Worker.search_promised hrun
  have hcomplete : success.coverage = .complete := hpromised.reasoned.coverage.2 hreasons
  have htime : ∀ s, (site.os.now s).1 < (site.os.now visit.searching).1 + t.deadlineMs * 1000000 := by
    rw [hsame.deadlineMs]
    exact hcalm.prompt.worker
  have hanswered := Worker.answeredWhole_of_complete st hdistinct hread (w := ⟨visit.searching, []⟩) htime
    (congrArg Prod.fst hrun) hcomplete
  obtain ⟨matcher, compiled, -, hcompiled, hwhole, htimeless⟩ := hanswered.answered
  have hcontents : fullResponse (site.world visit) request (answerFor site entry slot r success) (.ofSuccess success) kind
      = .ok request.requestId (scope (answerFor site entry slot r success) (.ofSuccess success)) []
        (.exact (visit.date 0) (max (visit.date 0) (visit.date 1)) .complete
          ((WorkerSuccess.ofSuccess success).hits.map
            (published (site.world visit) (answerFor site entry slot r success) kind))) := by
    rw [fullResponse, hreasons]
    rfl
  have hparts := hfull.symm.trans hcontents
  obtain ⟨rfl, rfl, rfl, hresult⟩ := Response.ok.inj hparts
  obtain ⟨rfl, rfl, -, rfl⟩ := Result.exact.inj hresult
  refine ⟨r, t, success, compiled, kind,
    ⟨hcalm, htraced, hplain, hcompiled, ⟨w', hrun⟩, matcher, hwhole, htimeless⟩, rfl, rfl, rfl, ?_⟩
  rw [hcontents] at hfits
  exact hfits

/-! ## §3 — a second call. -/

theorem deadlineMs_le {v : Json} (h : contextSchema v = some context) : context.deadlineMs ≤ 30000 := by
  obtain ⟨members, -, h⟩ := bind_some h
  obtain ⟨deadlineMs, hdeadline, h⟩ := bind_some h
  obtain ⟨responseBytes, -, h⟩ := bind_some h
  obtain rfl := Option.some.inj h
  exact (le_of_withDefault (by decide) hdeadline).2

/-- A call for a read under the ids and the narrowing of another call. -/
structure Again (site : Site σ φ) (visit' : Visit σ) (entry : Workspace.Entry) (slot' : Workspace.RootWorker)
    (request request' : Request) (caps' context' : Context) (v contextInput' : Json) (operation : ReadOperation)
    (path : JsString) (range : Worker.Range) (byteBudget : Nat) : Prop where
  calm : Calm site visit' request'.workspaceId (context'.lower caps') entry slot'
  parsed : parseRequest v = some request'
  context : contextSchema contextInput' = some context'
  workspaceId : request'.workspaceId = request.workspaceId
  scopePolicyId : request'.scopePolicyId = request.scopePolicyId
  narrow : request'.narrow = request.narrow
  operation : request'.operation = .read operation path range byteBudget

section Again

variable {v contextInput' : Json} {operation : ReadOperation} {path : JsString} {range : Worker.Range}
  {byteBudget : Nat} {t' : Worker.Request}

namespace Again

theorem readable (h : Again site visit' entry slot' request request' caps' context' v contextInput' operation path range
    byteBudget) : Readable ⟨path, range, operation.expected⟩ byteBudget := readable_of_parsed h.parsed h.operation

theorem deadline_le (h : Again site visit' entry slot' request request' caps' context' v contextInput' operation path
    range byteBudget) : (context'.lower caps').deadlineMs ≤ 30000 :=
  (Nat.min_le_left _ _).trans (deadlineMs_le h.context)

theorem bytes_le (h : Again site visit' entry slot' request request' caps' context' v contextInput' operation path
    range byteBudget) : (context'.lower caps').responseBytes ≤ 1048576 :=
  (Nat.min_le_left _ _).trans (bounds_of_contextSchema h.context).2

/-- It finds its way, if the budget is not below what the registry asks for. -/
theorem exists_traced (h : Again site visit' entry slot' request request' caps' context' v contextInput' operation path
    range byteBudget) (hfound : Found site visit entry slot listed request context r t success compiled)
    (hbytes : 2048 ≤ (context'.lower caps').responseBytes) :
    ∃ t', Traced site visit' entry slot' request' (context'.lower caps')
      (readFor site visit' request' (context'.lower caps') ⟨path, range, operation.expected⟩ r) t' :=
  exists_traced_read hfound.calm hfound.traced h.calm h.workspaceId h.scopePolicyId h.narrow h.operation h.readable
    h.deadline_le ⟨hbytes, h.bytes_le⟩

/-- There is one way only. -/
theorem eq_readFor (h : Again site visit' entry slot' request request' caps' context' v contextInput' operation path
    range byteBudget) (hfound : Found site visit entry slot listed request context r t success compiled)
    {r' : SearchRequest} (htraced' : Traced site visit' entry slot' request' (context'.lower caps') r' t') :
    r' = readFor site visit' request' (context'.lower caps') ⟨path, range, operation.expected⟩ r := by
  have hleast : 2048 ≤ (context'.lower caps').responseBytes := by
    have hleast : 2048 ≤ r'.responseBytes := Client.responseBytes_of_accepted htraced'.accepted
    rwa [(searchedAs_of_searchInput htraced'.read).responseBytes] at hleast
  obtain ⟨hone, hmost⟩ := remainingMs_bounds h.calm
  have hsame := searchSchema_read hfound.traced.read h.workspaceId h.scopePolicyId h.narrow h.operation
    h.readable.askable ⟨hone, hmost.trans h.deadline_le⟩ ⟨hleast, h.bytes_le⟩
  exact Option.some.inj (htraced'.read.symm.trans hsame)

end Again

/-- What a run of the worker is, for a read whose way is known. -/
theorem ran_of_read (st : Worker.Static site.os (.dir listed) site.root) (hdistinct : Worker.Node.Distinct (.dir listed))
    (hplatform : Platform site) (hfound : Found site visit entry slot listed request context r t success compiled)
    {workspaceId : JsString} (hcalm' : Calm site visit' workspaceId context' entry slot') {q : Client.WorkerRead}
    (htraced' : Traced site visit' entry slot' request' context' (readFor site visit' request' context' q r) t')
    {read : Worker.ReadRequest} (hasked : t'.read = some read) (hvalid : Worker.validate t' = .ok ()) :
    (∀ bytes, (read.path, bytes) ∈ Worker.eligibleFiles site.engine compiled t (.dir listed) →
      (Worker.search site.engine site.os site.root t' ⟨visit'.searching, []⟩).1.map Success.hits
        = Worker.readAnswer site.engine t' read bytes) ∧
    ((∀ bytes, (read.path, bytes) ∉ Worker.eligibleFiles site.engine compiled t (.dir listed)) →
      (Worker.search site.engine site.os site.root t' ⟨visit'.searching, []⟩).1 = .error .outOfScope) := by
  have hsame' := htraced'.same hcalm'
  have hlike := readLike_of_same hfound.same hsame' hfound.noRead hasked rfl
  obtain ⟨matcher, hwhole, -⟩ := hfound.whole
  -- the pattern of a read is fixed
  have hmatcher : (site.engine.matcher t'.pattern t'.kind t'.caseSensitive).isSome = true := by
    have hpattern : t'.pattern = "scoped-read".toList := encode_injective hsame'.pattern
    rw [hpattern, hsame'.kind, hsame'.caseSensitive]
    exact hplatform.fixed
  have htime : ∀ s, (site.os.now s).1 < (site.os.now visit'.searching).1 + t'.deadlineMs * 1000000 := by
    rw [hsame'.deadlineMs]
    exact hcalm'.prompt.worker
  have hruns := @Worker.read_of_whole _ _ _ _ _ _ _ _ _ _ _ ⟨visit'.searching, []⟩ st hdistinct hfound.compiles hwhole
    hlike hvalid hmatcher htime
  rwa [hfound.files] at hruns

/-- **Only a file that was searched can be read.** -/
theorem file_of_read (st : Worker.Static site.os (.dir listed) site.root) (hdistinct : Worker.Node.Distinct (.dir listed))
    (hplatform : Platform site) (hfound : Found site visit entry slot listed request context r t success compiled)
    (hagain : Again site visit' entry slot' request request' caps' context' v contextInput' operation path range
      byteBudget) (h : Succeeds (execute (site.world visit') caps' v contextInput')) :
    ∃ file ∈ Worker.eligibleFiles site.engine compiled t (.dir listed), encode file.1 = path := by
  obtain ⟨id, shown, issues, result, h⟩ := h
  obtain ⟨r', t', success', w', ws, htraced', hrun, -⟩ := traced_of_ok hagain.calm hagain.parsed hagain.context h
  obtain rfl := hagain.eq_readFor hfound htraced'
  obtain ⟨read, hasked, hreadPath, -, -⟩ := exists_read (htraced'.same hagain.calm) rfl
  obtain ⟨_, _, hvalid', -⟩ := Worker.search_ok hrun
  -- a path that was not searched is out of scope
  by_contra hnone
  have hmissing := (ran_of_read st hdistinct hplatform hfound hagain.calm htraced' hasked hvalid').2
    fun bytes hmem => hnone ⟨_, hmem, hreadPath⟩
  rw [hrun] at hmissing
  cases hmissing

/-- The worker answers a read of a file that was searched with its hit. -/
theorem exists_hit (st : Worker.Static site.os (.dir listed) site.root) (hdistinct : Worker.Node.Distinct (.dir listed))
    (hplatform : Platform site) (hfound : Found site visit entry slot listed request context r t success compiled)
    (hagain : Again site visit' entry slot' request request' caps' context' v contextInput' operation path range
      byteBudget)
    (htraced' : Traced site visit' entry slot' request' (context'.lower caps')
      (readFor site visit' request' (context'.lower caps') ⟨path, range, operation.expected⟩ r) t')
    {file : Worker.Str × Bytes} (hfile : file ∈ Worker.eligibleFiles site.engine compiled t (.dir listed))
    (hpath : encode file.1 = path) (hlength : range.stop - range.start ≤ 4096) (hinside : Inside file.2 range)
    (hdigest : ∀ digest, operation.expected = some digest → digest = encode (Worker.hex (site.engine.sha256 file.2)))
    (hreply : 2048 + (hitIn site.engine file range).size ≤ (context'.lower caps').responseBytes) :
    ∃ success' w', Worker.search site.engine site.os site.root t' ⟨visit'.searching, []⟩ = (.ok success', w') ∧
      t'.read.isSome = true ∧ success'.hits = [hitIn site.engine file range] := by
  obtain ⟨policyInput, hcreated⟩ := policy_of_serving hfound.calm.serving
  have hsame' := htraced'.same hagain.calm
  obtain ⟨read, hasked, hreadPath, hreadRange, hreadDigest⟩ := exists_read hsame' rfl
  have hname : read.path = file.1 := encode_injective (hreadPath.trans hpath.symm)
  have hrange : read.range = range := hreadRange
  have hplain := hfound.plainFile hfile
  -- it is a valid request
  have hk : nextOf slot' ≤ MAX_SAFE_INTEGER := hagain.calm.serving.idle.numbered
  have hwritten : 1 ≤ writtenMs site visit' entry slot' (context'.lower caps') ∧
      writtenMs site visit' entry slot' (context'.lower caps') ≤ 30000 := by
    have hmost := (htraced'.written_le hagain.calm).trans_eq htraced'.deadlineMs
    exact ⟨hagain.calm.prompt.sent, (hmost.trans (remainingMs_bounds hagain.calm).2).trans hagain.deadline_le⟩
  have hvalid' : Worker.validate t' = .ok () := by
    refine validate_read hk hcreated hsame' hasked (hname ▸ hplain.path) ?_ ?_ ?_ hwritten
      ⟨(Nat.le_add_right _ _).trans hreply, hagain.bytes_le⟩
    · rw [hrange]
      exact hagain.readable.ordered
    · rw [hrange]
      exact hinside.stop.trans hplain.length
    · rw [hrange]
      exact hlength
  -- and its answer is the hit
  have hof : Worker.readHitOf site.engine read file.2 = hitIn site.engine file range := by
    rw [Worker.readHitOf, hname, hrange]
  have hanswer : Worker.readAnswer site.engine t' read file.2 = .ok [hitIn site.engine file range] := by
    refine readAnswer_ok_iff.2 ⟨fun digest hgiven => ?_, hrange ▸ hinside, ?_, by rw [hof]⟩
    · refine encode_injective (hdigest (encode digest) ?_)
      rw [← show read.expectedFileSha256.map encode = operation.expected from hreadDigest, hgiven]
      rfl
    · rw [hof, hsame'.responseBytes]
      exact hreply
  have hsearched := (ran_of_read st hdistinct hplatform hfound hagain.calm htraced' hasked hvalid').1 file.2
    (hname ▸ hfile)
  rw [hanswer] at hsearched
  rcases hrun : Worker.search site.engine site.os site.root t' ⟨visit'.searching, []⟩ with ⟨code | success', w'⟩
  · rw [hrun] at hsearched
    cases hsearched
  · rw [hrun] at hsearched
    exact ⟨success', w', rfl, by rw [hasked]; rfl, Except.ok.inj hsearched⟩

/-- Where there is room for the hit of a read, its frame is within the cap. -/
theorem length_body_le (hfound : Found site visit entry slot listed request context r t success compiled)
    (hagain : Again site visit' entry slot' request request' caps' context' v contextInput' operation path range
      byteBudget)
    (htraced' : Traced site visit' entry slot' request' (context'.lower caps')
      (readFor site visit' request' (context'.lower caps') ⟨path, range, operation.expected⟩ r) t')
    {hit : Worker.Hit} (hpath : encode hit.path = path)
    (hroom : Room (scope (answerFor site entry slot r success) (.ofSuccess success)) hit
      (context'.lower caps').responseBytes) :
    (requestBody (sentOf (nextOf slot') entry.registration.policy
      (readFor site visit' request' (context'.lower caps') ⟨path, range, operation.expected⟩ r))
        (writtenMs site visit' entry slot' (context'.lower caps'))).length ≤ FRAME_CAP := by
  obtain ⟨policyInput, hcreated⟩ := policy_of_serving hfound.calm.serving
  have hk : nextOf slot' ≤ MAX_SAFE_INTEGER := hagain.calm.serving.idle.numbered
  have hwritten := ((htraced'.written_le hagain.calm).trans_eq htraced'.deadlineMs).trans
    ((remainingMs_bounds hagain.calm).2.trans hagain.deadline_le)
  have hbody : (requestBody (sentOf (nextOf slot') entry.registration.policy
      (readFor site visit' request' (context'.lower caps') ⟨path, range, operation.expected⟩ r))
        (writtenMs site visit' entry slot' (context'.lower caps'))).length
      ≤ 387 + Client.scopeBytes (Registry.searchScope entry.registration.policy r) + Json.escapedBytes path :=
    length_readBody_le hk (maxFileBytes_of_createPolicy hcreated).2 hagain.bytes_le hwritten hagain.readable.askable
  have hscope : Client.scopeBytes (Registry.searchScope entry.registration.policy r)
      ≤ Json.size (scope (answerFor site entry slot r success) (.ofSuccess success)).json :=
    @scopeBytes_le (answerFor site entry slot r success) _ r (.ofSuccess success) rfl rfl
  have hnamed := escapedBytes_path_le hit
  rw [hpath] at hnamed
  -- the budget of a response is no larger than the cap, and the request takes less than the response
  have hresponse := hroom.response
  have hmost := hagain.bytes_le
  have hcap : FRAME_CAP = 1048576 := rfl
  omega

/-- **A file that was searched can be read**: a read of a range inside it, with room for its hit, comes back with
the evidence that the search has for the range. -/
theorem read_again (st : Worker.Static site.os (.dir listed) site.root) (hdistinct : Worker.Node.Distinct (.dir listed))
    (hplatform : Platform site) (hfound : Found site visit entry slot listed request context r t success compiled)
    (hagain : Again site visit' entry slot' request request' caps' context' v contextInput' operation path range
      byteBudget)
    {file : Worker.Str × Bytes} (hfile : file ∈ Worker.eligibleFiles site.engine compiled t (.dir listed))
    (hpath : encode file.1 = path) (hlength : range.stop - range.start ≤ 4096) (hinside : Inside file.2 range)
    (hdigest : ∀ digest, operation.expected = some digest → digest = encode (Worker.hex (site.engine.sha256 file.2)))
    (hroom : Room (scope (answerFor site entry slot r success) (.ofSuccess success)) (hitIn site.engine file range)
      (context'.lower caps').responseBytes) :
    ∃ shown', execute (site.world visit') caps' v contextInput' = some (.ok request'.requestId shown' []
      (.read operation (evidence site.host.sha256 (answerFor site entry slot r success)
        (.ofHit (hitIn site.engine file range))) (visit'.date 1))) := by
  obtain ⟨t', htraced'⟩ := hagain.exists_traced hfound ((Nat.le_add_right _ _).trans hroom.reply)
  obtain ⟨success', w', hrun, hread, hhits⟩ := exists_hit st hdistinct hplatform hfound hagain htraced' hfile hpath
    hlength hinside hdigest hroom.reply
  have hcap := length_body_le hfound hagain htraced' hpath hroom
  have hfetch := fetch_of_run hplatform hrun hread
  set r' := readFor site visit' request' (context'.lower caps') ⟨path, range, operation.expected⟩ r
  -- both answers are of one registration and one scope
  have ha : answerFor site entry slot' r' success' = { answerFor site entry slot r success with
    result := (answerFor site entry slot' r' success').result } := rfl
  have hsnapshot : Client.isDigest (WorkerSuccess.ofSuccess success).policySnapshotHash = true := by
    obtain ⟨_, hran⟩ := hfound.ran
    exact ((served_of_traced hfound.calm hfound.traced hran).received hplatform.regular).countable.snapshot
  have hfits : (readResponse (site.world visit') request' (answerFor site entry slot' r' success') (.ofSuccess success')
      operation (.ofHit (hitIn site.engine file range))).bytes site.dates ≤ (context'.lower caps').responseBytes := by
    have hshort := @bytes_read_le σ φ site visit' request' success' hplatform _ _ _ ha hsnapshot
      (requestId_of_parsed hagain.parsed).1 hfetch operation (hitIn site.engine file range)
    have hresponse := hroom.response
    exact hshort.trans (by omega)
  have hexecute := execute_read hplatform hagain.calm hagain.parsed hagain.context hagain.operation htraced' hcap hrun
    hhits hfits
  rw [hexecute, readResponse_eq (site.world visit') request' ha hfetch]
  exact ⟨_, rfl⟩

end Again

end Found

/-! ## §4 — agreement. -/

/-- The files of a tree that are in the scope of a policy with a narrowing: the eligible ones, by the globs and the
rules compiled from it. -/
def Scoped (engine : Engine) (policy : Workspace.Policy) (narrow : Option Workspace.Narrow)
    (listed : List (Worker.DirName × Worker.Node)) (files : List (Worker.Str × Bytes)) : Prop :=
  ∃ scope compiled, Client.WorkerScope.ofInput scope = Workspace.narrowPolicy policy (narrow.getD Workspace.Narrow.none) ∧
    Worker.Scope.new engine scope = .ok compiled ∧
    files = Worker.Node.eligible engine compiled.toFilter policy.maxFileBytes (.dir listed) (.dir listed) []

/-- A read of a part of an eligible file can be asked for. -/
theorem parseRequest_file {input : Json} {request : Request} (hrequest : parseRequest input = some request) {limit : Nat}
    {file : Worker.Str × Bytes} (hfile : Worker.Plain limit file) (hlimit : limit ≤ 16777216) {id : JsString}
    (hid : isId id = true) {operation : ReadOperation}
    (hdigest : ∀ digest, operation.expected = some digest → Client.isDigest digest = true) {range : Worker.Range}
    {byteBudget : Nat} (hinside : Inside file.2 range) (hordered : range.start ≤ range.stop)
    (hcovers : range.stop - range.start ≤ byteBudget) (hbudget : 1 ≤ byteBudget ∧ byteBudget ≤ 1048576) :
    parseRequest (againInput request id operation (encode file.1) range byteBudget)
      = some (request.again id operation (encode file.1) range byteBudget) := by
  have hsafe : range.start ≤ MAX_SAFE_INTEGER ∧ range.stop ≤ MAX_SAFE_INTEGER := by
    have hstop := hinside.stop.trans (hfile.length.trans hlimit)
    have hmax : 16777216 ≤ MAX_SAFE_INTEGER := by decide
    omega
  refine parseRequest_again hrequest hid ⟨⟨Client.pathSchema_of_validPath hfile.path, hsafe, hdigest⟩,
    Utf16.isWellFormed_encode _, hordered, hcovers⟩ ?_ hbudget
  rw [Utf16.byteLength_encode]
  exact Client.utf8Len_of_validPath hfile.path

/-- What a complete exact search settles about the reads under its policy and its narrowing: `files` are the files in
scope. -/
structure Agreement {σ φ : Type} (site : Site σ φ) (listed : List (Worker.DirName × Worker.Node))
    (entry : Workspace.Entry) (request : Request) (caps context : Context) (contextInput : Json) (shown : EffectiveScope)
    (hits : List ExactMatch) (files : List (Worker.Str × Bytes)) : Prop where
  within : Scoped site.engine entry.registration.policy request.narrow listed files
  /-- The search has counted them, each once. -/
  counted : shown.counts.searched = .known files.length
  distinct : (files.map (·.1)).Nodup
  /-- A fresh read with room for its excerpt succeeds at their paths, and at no other path. -/
  fresh : ∀ (visit' : Visit σ) (slot' : Workspace.RootWorker) (caps' context' : Context) (v contextInput' : Json)
    (id' path : JsString) (range : Worker.Range) (byteBudget : Nat),
    contextSchema contextInput' = some context' →
    Calm site visit' request.workspaceId (context'.lower caps') entry slot' →
    parseRequest v = some (request.again id' .fresh path range byteBudget) →
    range.stop - range.start ≤ 4096 →
    (∀ file ∈ files, encode file.1 = path → Inside file.2 range ∧
      Room shown (hitIn site.engine file range) (context'.lower caps').responseBytes) →
    (Succeeds (execute (site.world visit') caps' v contextInput') ↔ ∃ file ∈ files, encode file.1 = path)
  /-- Such a read of each of them can be asked for. -/
  asked : ∀ file ∈ files, ∀ (range : Worker.Range) (id' : JsString) (byteBudget : Nat), Inside file.2 range →
    range.start ≤ range.stop → range.stop - range.start ≤ byteBudget → 1 ≤ byteBudget ∧ byteBudget ≤ 1048576 →
    isId id' = true →
    parseRequest (againInput request id' .fresh (encode file.1) range byteBudget)
      = some (request.again id' .fresh (encode file.1) range byteBudget)
  /-- A hit can be asked for again by its digest, and comes back with its evidence. -/
  verified : ∀ m ∈ hits, m.evidence.range.stop - m.evidence.range.start ≤ 4096 → ∀ (id' : JsString) (byteBudget : Nat),
    m.evidence.range.stop - m.evidence.range.start ≤ byteBudget → 1 ≤ byteBudget ∧ byteBudget ≤ 1048576 →
    isId id' = true →
    parseRequest (againInput request id' (.verified m.evidence.fileSha256) m.evidence.path m.evidence.range byteBudget)
      = some (request.again id' (.verified m.evidence.fileSha256) m.evidence.path m.evidence.range byteBudget) ∧
    ∀ (visit' : Visit σ) (slot' : Workspace.RootWorker) (v : Json),
      Calm site visit' request.workspaceId (context.lower caps) entry slot' →
      parseRequest v
        = some (request.again id' (.verified m.evidence.fileSha256) m.evidence.path m.evidence.range byteBudget) →
      ∃ shown', execute (site.world visit') caps v contextInput
        = some (.ok id' shown' [] (.read (.verified m.evidence.fileSha256) m.evidence (visit'.date 1)))

section Found

variable {σ φ : Type} {site : Site σ φ} {visit visit' : Visit σ} {entry : Workspace.Entry}
  {slot slot' : Workspace.RootWorker} {listed : List (Worker.DirName × Worker.Node)} {request : Request}
  {caps caps' context context' : Context} {r : SearchRequest} {t : Worker.Request} {success : Success}
  {compiled : Worker.Scope} {v input contextInput contextInput' : Json} {id' path : JsString} {range : Worker.Range}
  {byteBudget : Nat}

/-- The digest that a hit is read again by is the one of its file. -/
theorem expected_of_source {file : Bytes} {hit : Worker.Hit}
    (hsource : hit = Worker.readHit hit.path (Worker.hex (site.engine.sha256 file)) file hit.range) :
    ∀ digest, (ReadOperation.verified (encode hit.fileSha256)).expected = some digest →
      digest = encode (Worker.hex (site.engine.sha256 file)) := by
  intro digest hsome
  have hdigest : encode hit.fileSha256 = encode (Worker.hex (site.engine.sha256 file)) := by
    rw [hsource]
    rfl
  exact (Option.some.inj hsome).symm.trans hdigest

namespace Found

theorem within (h : Found site visit entry slot listed request context r t success compiled) :
    Scoped site.engine entry.registration.policy request.narrow listed
      (Worker.eligibleFiles site.engine compiled t (.dir listed)) := by
  refine ⟨t.scope, compiled, ?_, h.compiles, ?_⟩
  · rw [h.same.scope.2 _ rfl, Registry.searchScope, (searchedAs_of_searchInput h.traced.read).narrow]
  · rw [Worker.eligibleFiles, show t.maxFileBytes = entry.registration.policy.maxFileBytes from h.same.maxFileBytes]

theorem maxFileBytes_le (h : Found site visit entry slot listed request context r t success compiled) :
    entry.registration.policy.maxFileBytes ≤ 16777216 := by
  obtain ⟨policyInput, hcreated⟩ := policy_of_serving h.calm.serving
  exact (maxFileBytes_of_createPolicy hcreated).2

/-- A fresh read of a path. -/
theorem fresh (h : Found site visit entry slot listed request context r t success compiled)
    (st : Worker.Static site.os (.dir listed) site.root) (hdistinct : Worker.Node.Distinct (.dir listed))
    (hplatform : Platform site) (hcontext' : contextSchema contextInput' = some context')
    (hcalm' : Calm site visit' request.workspaceId (context'.lower caps') entry slot')
    (hv : parseRequest v = some (request.again id' .fresh path range byteBudget))
    (hlength : range.stop - range.start ≤ 4096)
    (hsuits : ∀ file ∈ Worker.eligibleFiles site.engine compiled t (.dir listed), encode file.1 = path →
      Inside file.2 range ∧ Room (scope (answerFor site entry slot r success) (.ofSuccess success))
        (hitIn site.engine file range) (context'.lower caps').responseBytes) :
    Succeeds (execute (site.world visit') caps' v contextInput') ↔
      ∃ file ∈ Worker.eligibleFiles site.engine compiled t (.dir listed), encode file.1 = path := by
  have hagain : Again site visit' entry slot' request (request.again id' .fresh path range byteBudget) caps' context' v
      contextInput' .fresh path range byteBudget := ⟨hcalm', hv, hcontext', rfl, rfl, rfl, rfl⟩
  constructor
  · exact file_of_read st hdistinct hplatform h hagain
  · rintro ⟨file, hfile, hpath⟩
    obtain ⟨hinside, hroom⟩ := hsuits file hfile hpath
    obtain ⟨shown', hok⟩ := read_again st hdistinct hplatform h hagain hfile hpath hlength hinside
      (fun digest hnone => by cases hnone) hroom
    exact ⟨_, _, _, _, hok⟩

/-- A hit can be asked for. -/
theorem askable (h : Found site visit entry slot listed request context r t success compiled)
    (hplatform : Platform site) (hrequest : parseRequest input = some request) {hit : Worker.Hit}
    (hhit : hit ∈ success.hits) (hlength : hit.range.stop - hit.range.start ≤ 4096) (hid : isId id' = true)
    (hcovers : hit.range.stop - hit.range.start ≤ byteBudget) (hbudget : 1 ≤ byteBudget ∧ byteBudget ≤ 1048576) :
    parseRequest (againInput request id' (.verified (encode hit.fileSha256)) (encode hit.path) hit.range byteBudget)
      = some (request.again id' (.verified (encode hit.fileSha256)) (encode hit.path) hit.range byteBudget) := by
  obtain ⟨file, hfile, hinside, hsource⟩ := h.source hhit hlength
  refine parseRequest_file hrequest (h.plainFile hfile) h.maxFileBytes_le hid ?_ hinside
    (h.ordered hplatform.regular hhit) hcovers hbudget
  intro digest hsome
  rw [expected_of_source hsource digest hsome]
  exact Client.isDigest_hex (hplatform.regular.sha256 _)

end Found

end Found

/-- **Reads agree with a complete exact search, on scope and on evidence.** -/
theorem exact_reads_agree {σ φ : Type} {site : Site σ φ} {listed : List (Worker.DirName × Worker.Node)}
    (st : Worker.Static site.os (.dir listed) site.root) (hdistinct : Worker.Node.Distinct (.dir listed))
    (hplatform : Platform site) {visit : Visit σ} {entry : Workspace.Entry} {slot : Workspace.RootWorker}
    {caps context : Context} {input contextInput : Json} {request : Request}
    (hrequest : parseRequest input = some request) (hcontext : contextSchema contextInput = some context)
    (hcalm : Calm site visit request.workspaceId (context.lower caps) entry slot) {id : JsString}
    {shown : EffectiveScope} {issues : List Issue} {startedAt endedAt : Nat} {hits : List ExactMatch}
    (h : execute (site.world visit) caps input contextInput
      = some (.ok id shown issues (.exact startedAt endedAt .complete hits))) :
    ∃ files, Agreement site listed entry request caps context contextInput shown hits files := by
  obtain ⟨r, t, success, compiled, kind, hfound, rfl, rfl, rfl, hfits⟩ :=
    found_of_complete st hdistinct hplatform hcalm hrequest hcontext h
  obtain ⟨matcher, hwhole, htimeless⟩ := hfound.whole
  refine ⟨Worker.eligibleFiles site.engine compiled t (.dir listed), {
    within := hfound.within
    counted := ?_
    distinct := ?_
    fresh := fun visit' slot' caps' context' v contextInput' id' path range byteBudget hcontext' hcalm' hv hlength
      hsuits => hfound.fresh st hdistinct hplatform hcontext' hcalm' hv hlength hsuits
    asked := ?_
    verified := ?_ }⟩
  · rw [← hfound.files]
    exact congrArg ReportedCount.known (Worker.counts_of_whole hfound.scanned htimeless)
  · rw [← hfound.files]
    exact Worker.filesOf_nodup hdistinct
  · intro file hfile range id' byteBudget hinside hordered hcovers hbudget hid
    exact parseRequest_file hrequest (hfound.plainFile hfile) hfound.maxFileBytes_le hid
      (fun digest hnone => by cases hnone) hinside hordered hcovers hbudget
  · intro m hm hlength id' byteBudget hcovers hbudget hid
    obtain ⟨x, hx, rfl⟩ := List.mem_map.1 hm
    obtain ⟨hit, hhit, rfl⟩ := List.mem_map.1 hx
    refine ⟨hfound.askable hplatform hrequest hhit hlength hid hcovers hbudget, ?_⟩
    intro visit' slot' v hcalm' hv
    have hagain : Again site visit' entry slot' request (request.again id' (.verified (encode hit.fileSha256))
        (encode hit.path) hit.range byteBudget) caps context v contextInput (.verified (encode hit.fileSha256))
        (encode hit.path) hit.range byteBudget := ⟨hcalm', hv, hcontext, rfl, rfl, rfl, rfl⟩
    obtain ⟨bytes, hfile, hinside, hsource⟩ := hfound.source hhit hlength
    -- the hit of the read is the hit of the search
    have hsame : hitIn site.engine (hit.path, bytes) hit.range = hit := hsource.symm
    have hroom := hfound.room hplatform hfits hhit
    rw [← hsame] at hroom
    obtain ⟨shown', hok⟩ := read_again st hdistinct hplatform hfound hagain hfile rfl hlength hinside
      (expected_of_source hsource) hroom
    rw [hsame] at hok
    exact ⟨shown', hok⟩

/-- The entries of a tree with two files, of which the first has an `a`. -/
def oneOfTwo : List (Worker.DirName × Worker.Node) :=
  [(.ofStr ['a'] Worker.slash_not_mem_a, .file Worker.oneFileText),
    (.ofStr ['b'] Worker.slash_not_mem_b, .file (Utf8.encode "y\n".toList))]

theorem distinct_oneOfTwo : Worker.Node.Distinct (.dir oneOfTwo) := by
  refine .dir _ (by decide) (by decide) fun e he => ?_
  rcases List.mem_pair.1 he with rfl | rfl <;> exact .file _

/-- The date that the sample writes. -/
def sampleDate : JsString := units "2026-01-01T00:00:00.000Z"

theorem size_sampleDate : 24 ≤ Json.escapedBytes sampleDate ∧ Json.escapedBytes sampleDate ≤ 27 := by
  decide +kernel

/-- The sample host, whose workspace has that tree. -/
def sampleSite : Site Nat Worker.Node where
  host := Registry.sampleHost
  dates := ⟨fun _ => sampleDate, fun _ => true⟩
  engine := Engine.plain
  os := Worker.Node.os (.dir oneOfTwo)
  root := .dir oneOfTwo

/-- A call at a date, behind the sample registration. -/
def sampleVisit (date : Nat) : Visit Nat where
  events := Registry.sampleEvents
  clock := fun _ => 0
  date := fun n => date + n
  starting := 0
  searching := 0
  pieces := fun frame => [frame.take 4, frame.drop 4].filter (· ≠ [])

theorem platform_sample : Platform sampleSite where
  sha256 := Sha256.length_digest
  regular := Client.regular_plain
  fixed := rfl
  iso _ := size_sampleDate

theorem whole_pieces (frame : Bytes) : ([frame.take 4, frame.drop 4].filter (· ≠ [])).flatten = frame := by
  calc ([frame.take 4, frame.drop 4].filter (· ≠ [])).flatten = [frame.take 4, frame.drop 4].flatten :=
        List.flatten_filter_ne_nil
    _ = frame := by simp

/-- What the sample registration leaves. -/
def sampleMet : Registry := Registry.after Registry.sampleHost Registry.sampleEvents

/-- Whether a worker has one process, which runs, and nothing to do. -/
def isFree (m : Client.Machine) : Bool :=
  m.worker.pending.isNone && m.worker.opening.isNone && !m.worker.disposed && !m.worker.retiring &&
    m.worker.sequence == 1 && m.worker.child == some 0 && !m.hasExited 0 && !m.hasClosed 0 && m.worker.ready &&
    m.worker.input == []

theorem idle_of_free {σ φ : Type} {site : Site σ φ} {visit : Visit σ} {rt : Client.Runtime} {m : Client.Machine}
    (h : isFree m = true) : Idle site visit rt m := by
  simp only [isFree, Bool.and_eq_true, Bool.not_eq_true', beq_iff_eq, Option.isNone_iff_eq_none] at h
  obtain ⟨⟨⟨⟨⟨⟨⟨⟨⟨hpending, hopening⟩, hdisposed⟩, hretiring⟩, hsequence⟩, hchild⟩, hexited⟩, hclosed⟩, hready⟩,
    hinput⟩ := h
  exact {
    pending := hpending
    opening := hopening
    disposed := hdisposed
    retiring := hretiring
    numbered := by
      rw [hsequence]
      decide
    started := .inl ⟨⟨0, hchild, hexited, hclosed⟩, hready, hinput⟩ }

theorem hearing_sample (date : Nat) (entry : Workspace.Entry) : Hearing sampleSite (sampleVisit date) entry where
  reads v := by
    show (Utf8.decode (Worker.toVec v)).bind Json.parse = some v
    rw [Worker.toVec, Utf8.decode_encode]
    exact Json.parse_print v
  pieces frame := ⟨whole_pieces frame, fun _ h => of_decide_eq_true (List.mem_filter.1 h).2⟩

/-- The clocks of the sample stand still. -/
theorem leftMs_sample (w : Workspace.WorkerId) (m : Client.Machine) :
    leftMs (sampleSite.host.runtime w) m 10000 = 10000 := by
  have hleft : ((10000 : Nat) * 1000000 - (0 - 0) : Int) / 1000000 = 10000 := by decide
  exact congrArg Int.toNat hleft

theorem prompt_sample (date : Nat) (w : Workspace.WorkerId) (m : Client.Machine) :
    Prompt sampleSite (sampleVisit date) (sampleSite.host.runtime w) m 10000 where
  ahead := Int.le_refl 0
  sent := by
    rw [leftMs_sample]
    decide
  answered := (by decide : (0 - 0 : Int) < ((10000 : Nat) : Int) * 1000000)
  worker _ := by
    rw [leftMs_sample]
    exact Nat.zero_lt_succ _

theorem undisturbed_sample (date : Nat) : Undisturbed (sampleSite.world (sampleVisit date)) ⟨10000, 65536⟩ where
  before := rfl
  after := rfl
  remaining := (by decide : (1 : Int) ≤ ((10000 : Nat) * 1000000 - (0 - 0)) / 1000000)
  punctual _ := (by decide : decide (((10000 : Nat) : Int) * 1000000 ≤ 0 - 0) = false)

theorem remainingMs_sample (date : Nat) :
    remainingMs (sampleSite.world (sampleVisit date)) ⟨10000, 65536⟩ = 10000 := by
  have hleft : ((10000 : Nat) * 1000000 - (0 - 0) : Int) / 1000000 = 10000 := by decide
  exact congrArg Int.toNat hleft

/-- A call of the sample is calm at any date. -/
theorem calm_sample : ∃ entry slot, entry.registration.policy = ⟨[], [], false, true, 1048576⟩ ∧
    ∀ date, Calm sampleSite (sampleVisit date) (Registry.sampleUuid 0) ⟨10000, 65536⟩ entry slot := by
  obtain ⟨haccepting, hget, hworkers⟩ : sampleMet.closed = false ∧
      (sampleMet.get (Registry.sampleUuid 0)).map (fun e => (e.worker, e.registration.policy))
        = some (0, ⟨[], [], false, true, 1048576⟩) ∧
      (sampleMet.workers[0]?).map (fun slot => isFree slot.machine) = some true := by
    decide +kernel
  obtain ⟨entry, hentry, hof⟩ := Option.map_eq_some_iff.1 hget
  obtain ⟨hworker, hpolicy⟩ := Prod.mk.inj hof
  obtain ⟨slot, hslot, hfree⟩ := Option.map_eq_some_iff.1 hworkers
  rw [← hworker] at hslot
  refine ⟨entry, slot, hpolicy, fun date => ?_⟩
  have hprompt := prompt_sample date entry.worker slot.machine
  rw [← remainingMs_sample date] at hprompt
  exact ⟨⟨haccepting, hentry, hslot, idle_of_free hfree⟩, hearing_sample date entry, undisturbed_sample date,
    Int.le_refl 0, hprompt, fun _ => rfl⟩

/-- The files of the sample. -/
theorem scoped_sample {files : List (Worker.Str × Bytes)}
    (h : Scoped Engine.plain ⟨[], [], false, true, 1048576⟩ none oneOfTwo files) :
    files = [(['a'], Worker.oneFileText), (['b'], Utf8.encode "y\n".toList)] := by
  obtain ⟨scope, compiled, hscope, hcompiled, rfl⟩ := h
  have hwhole : Client.WorkerScope.ofInput ⟨[[], []], [], false, true⟩
      = Workspace.narrowPolicy ⟨[], [], false, true, 1048576⟩ (Option.getD none Workspace.Narrow.none) := by
    decide +kernel
  obtain rfl := ofInput_injective (hscope.trans hwhole.symm)
  have hfiles : (Worker.Scope.new Engine.plain ⟨[[], []], [], false, true⟩).toOption.map (fun compiled =>
      Worker.Node.eligible Engine.plain compiled.toFilter 1048576 (.dir oneOfTwo) (.dir oneOfTwo) [])
        = some [(['a'], Worker.oneFileText), (['b'], Utf8.encode "y\n".toList)] := by
    decide +kernel
  rw [hcompiled] at hfiles
  exact Option.some.inj hfiles

/-- The scope and the hits of a complete exact response. -/
def completeHits : Response → Option (EffectiveScope × List ExactMatch)
  | .ok _ shown _ (.exact _ _ .complete hits) => some (shown, hits)
  | _ => none

theorem eq_of_completeHits {response : Response} {shown : EffectiveScope} {hits : List ExactMatch}
    (h : completeHits response = some (shown, hits)) : ∃ id issues startedAt endedAt,
      response = .ok id shown issues (.exact startedAt endedAt .complete hits) := by
  unfold completeHits at h
  split at h
  · obtain ⟨rfl, rfl⟩ := Prod.mk.inj (Option.some.inj h)
    exact ⟨_, _, _, _, rfl⟩
  · cases h

/-- What a call of the sample comes to. -/
def sampleCall (date : Nat) (v : Json) : Option Response :=
  execute (sampleSite.world (sampleVisit date)) ⟨30000, 1048576⟩ v (.obj [])

/-- A search for the letter is complete with one hit, which is read again; of the two files the one without a hit can
be read, too, and no other path. -/
theorem exact_reads_agree_sample : ∃ shown m, (sampleCall 0 sampleInput).bind completeHits = some (shown, [m]) ∧
    (∃ shown', sampleCall 7 (againInput sampleParsed (units "r") (.verified m.evidence.fileSha256) m.evidence.path
        m.evidence.range 1)
      = some (.ok (units "r") shown' [] (.read (.verified m.evidence.fileSha256) m.evidence 8))) ∧
    Succeeds (sampleCall 7 (againInput sampleParsed (units "r") .fresh (encode ['b']) ⟨0, 2⟩ 2)) ∧
    ¬Succeeds (sampleCall 7 (againInput sampleParsed (units "r") .fresh (encode ['c']) ⟨0, 2⟩ 2)) := by
  have hsummary : ((sampleCall 0 sampleInput).bind completeHits).map (fun p =>
      (decide (Json.size p.1.json ≤ 4096), p.2.map (·.evidence.range))) = some (true, [⟨1, 2⟩]) := by
    decide +kernel
  obtain ⟨⟨shown, hits⟩, hanswer, hsummary⟩ := Option.map_eq_some_iff.1 hsummary
  obtain ⟨hshown, hranges⟩ := Prod.mk.inj hsummary
  obtain ⟨m, rest, rfl, hrange, hrest⟩ := List.map_eq_cons_iff.1 hranges
  obtain rfl := List.map_eq_nil_iff.1 hrest
  obtain ⟨response, hcall, hcomplete⟩ := Option.bind_eq_some_iff.1 hanswer
  obtain ⟨id, issues, startedAt, endedAt, rfl⟩ := eq_of_completeHits hcomplete
  obtain ⟨entry, slot, hpolicy, hcalm⟩ := calm_sample
  have hcontext : contextSchema (.obj []) = some ⟨10000, 65536⟩ := by decide
  obtain ⟨files, hagree⟩ := exact_reads_agree (Worker.Node.static (.dir oneOfTwo)) distinct_oneOfTwo platform_sample
    (show parseRequest sampleInput = some sampleParsed by decide +kernel) hcontext (hcalm 0) hcall
  have hscoped := hagree.within
  rw [hpolicy] at hscoped
  obtain rfl := scoped_sample hscoped
  have hsize : (hitIn Engine.plain (['b'], Utf8.encode "y\n".toList) ⟨0, 2⟩).size ≤ 4096 := by decide +kernel
  have hroom : Room shown (hitIn Engine.plain (['b'], Utf8.encode "y\n".toList) ⟨0, 2⟩) 65536 := by
    have hshown : Json.size shown.json ≤ 4096 := of_decide_eq_true hshown
    constructor <;> omega
  have hb : parseRequest (againInput sampleParsed (units "r") .fresh (encode ['b']) ⟨0, 2⟩ 2)
      = some (sampleParsed.again (units "r") .fresh (encode ['b']) ⟨0, 2⟩ 2) :=
    hagree.asked _ (List.mem_cons_of_mem _ List.mem_cons_self) _ _ _ ⟨by decide, by decide, by decide⟩ (by decide)
      (by decide) (by decide) (by decide)
  have hc : parseRequest (againInput sampleParsed (units "r") .fresh (encode ['c']) ⟨0, 2⟩ 2)
      = some (sampleParsed.again (units "r") .fresh (encode ['c']) ⟨0, 2⟩ 2) := by
    decide +kernel
  refine ⟨shown, m, hanswer, ?_, ?_, ?_⟩
  · obtain ⟨hparsed, hexecute⟩ := hagree.verified m List.mem_cons_self (by rw [hrange]; decide) (units "r") 1
      (by rw [hrange]; decide) (by decide) (by decide)
    exact hexecute _ _ _ (hcalm 7) hparsed
  · refine (hagree.fresh _ _ _ _ _ _ _ _ _ _ hcontext (hcalm 7) hb (by decide) ?_).2 ⟨_, List.mem_cons_of_mem _ List.mem_cons_self, rfl⟩
    intro file hfile hpath
    rcases List.mem_pair.1 hfile with rfl | rfl
    · exact absurd hpath (by decide)
    · exact ⟨⟨by decide, by decide, by decide⟩, hroom⟩
  · intro hsucceeds
    have hnone : ∀ file ∈ [(['a'], Worker.oneFileText), (['b'], Utf8.encode "y\n".toList)],
        encode file.1 ≠ encode ['c'] := by
      decide
    obtain ⟨file, hfile, hpath⟩ := (hagree.fresh _ _ _ _ _ _ _ _ _ _ hcontext (hcalm 7) hc (by decide)
      (fun file hfile hpath => absurd hpath (hnone file hfile))).1 hsucceeds
    exact hnone file hfile hpath

end JevGrep.Service
