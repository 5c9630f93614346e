/-
# `JevGrep.Client.Accept` — the client reads what the worker writes.

A reply that the worker serializes is parsed by the client's schemas to the same values, strings in
code units, and passes every check behind the schemas. §1 field values; §2 hits; §3 replies; §4 the
checks behind the schema; §5 a reply to a request of the client.
-/
import JevGrep.Client.Carriage
import JevGrep.Client.Protocol
import JevGrep.Worker.Budget
import JevGrep.Worker.Excerpt
import JevGrep.Worker.Reply

namespace JevGrep.Client

open JevGrep.Lib JevGrep.Lib.Schema
open JevGrep.Lib.Utf16 (encode encode_injective isWellFormed_encode byteLength_encode
  length_encode_le utf8Len)
open JevGrep.Contracts (JsString pathSchema pathSchema_iff validPath_iff pathGrammar_iff
  exposesTraversal_mem)
open JevGrep.Worker (Bytes Code Coverage Counts Engine Hit Excerpt Failure Job Range Str
  Success Valid WellCut fromSlice hex isText reply strJson structJson toVec validPath)

/-! ## §1 — field values. -/

theorem string_strJson (s : Str) : string (strJson s) = some (encode s) := rfl

theorem int_nat {least most n : Nat} (h : least ≤ n ∧ n ≤ most ∧ n ≤ MAX_SAFE_INTEGER) :
    int least most (.nat n) = some n :=
  if_pos (by simp [h.1, h.2.1, h.2.2])

theorem boundedString_strJson {least most : Nat} {s : Str}
    (h : least ≤ (encode s).length ∧ (encode s).length ≤ most) :
    boundedString least most (strJson s) = some (encode s) := by
  rw [boundedString, string_strJson, Option.filter_some, if_pos]
  simp [h.1, h.2]

theorem hexDigit_range : ∀ n < 16, ∃ c, Json.hexDigit n = c ∧ c.toNat < 0x80 ∧
    ((0x61 ≤ c.toNat ∧ c.toNat ≤ 0x66) ∨ (0x30 ≤ c.toNat ∧ c.toNat ≤ 0x39)) := by
  intro n hn
  refine ⟨_, rfl, ?_⟩
  revert n
  decide

/-- The hexadecimal digest of 32 bytes has the form of a digest. -/
theorem isDigest_hex {digest : Bytes} (h : digest.length = 32) : isDigest (encode (hex digest)) = true := by
  have hchars : ∀ c ∈ hex digest, c.toNat < 0x80 ∧
      ((0x61 ≤ c.toNat ∧ c.toNat ≤ 0x66) ∨ (0x30 ≤ c.toNat ∧ c.toNat ≤ 0x39)) := by
    intro c hc
    obtain ⟨b, -, hb⟩ := List.mem_flatMap.1 hc
    have hlt := b.toNat_lt
    rcases List.mem_cons.1 hb with rfl | hb
    · obtain ⟨_, rfl, h⟩ := hexDigit_range (b.toNat / 16) (by omega)
      exact h
    · rw [List.mem_singleton.1 hb]
      obtain ⟨_, rfl, h⟩ := hexDigit_range (b.toNat % 16) (by omega)
      exact h
  have hunits : encode (hex digest) = (hex digest).map Utf16.unit := by
    rw [encode, List.map_eq_flatMap]
    exact List.flatMap_congr fun c hc => Utf16.encodeChar_self (by have := hchars c hc; omega)
  have hlength : (hex digest).length = 2 * digest.length := by
    clear h hchars hunits
    induction digest with
    | nil => rfl
    | cons b digest ih =>
      rw [hex, List.flatMap_cons, List.length_append, ← hex, ih, List.length_cons]
      simp only [List.length_cons, List.length_nil]
      omega
  rw [isDigest, hunits, Bool.and_eq_true, List.length_map, hlength, h, List.all_eq_true]
  refine ⟨by decide, fun u hu => ?_⟩
  obtain ⟨c, hc, rfl⟩ := List.mem_map.1 hu
  obtain ⟨hsmall, hrange⟩ := hchars c hc
  rw [Utf16.toNat_unit (by omega)]
  simpa using hrange

theorem digestSchema_hex {digest : Bytes} (h : digest.length = 32) :
    digestSchema (strJson (hex digest)) = some (encode (hex digest)) := by
  rw [digestSchema, string_strJson, Option.filter_some, if_pos (isDigest_hex h)]

theorem utf8Len_of_validPath {path : Str} (h : validPath path = true) : utf8Len path ≤ 4096 := by
  rw [validPath, Bool.and_eq_true, Bool.and_eq_true, Bool.and_eq_true] at h
  exact of_decide_eq_true h.1.1.2

/-- A path that the worker accepts, the client accepts. -/
theorem pathSchema_of_validPath {path : Str} (h : validPath path = true) :
    pathSchema (encode path) = true := by
  have hgrammar := (validPath_iff path (utf8Len_of_validPath h)).1 h
  rw [pathGrammar_iff] at hgrammar
  rw [pathSchema_iff]
  refine ⟨hgrammar.1, Bool.not_eq_true _ ▸ fun hexposes => ?_⟩
  obtain ⟨comp, hcomp, hdots⟩ := exposesTraversal_mem hexposes
  rw [hgrammar.2 comp hcomp] at hdots
  cases hdots

theorem pathString_strJson {path : Str} (h : validPath path = true) :
    pathString (strJson path) = some (encode path) := by
  rw [pathString, string_strJson, Option.filter_some, if_pos (pathSchema_of_validPath h)]

theorem rangeSchema_json {r : Range} (h₁ : r.start ≤ MAX_SAFE_INTEGER)
    (h₂ : r.stop ≤ MAX_SAFE_INTEGER) : rangeSchema r.json = some r := by
  have hjson : r.json = .obj (named [("start", .nat r.start), ("end", .nat r.stop)]) := rfl
  rw [hjson]
  refine some_bind (strictObject_named (by simp)) ?_
  refine some_bind (required_named (by simp) (by simp) (int_nat ⟨Nat.zero_le _, h₁, h₁⟩)) ?_
  exact some_bind (required_named (by simp) (by simp) (int_nat ⟨Nat.zero_le _, h₂, h₂⟩)) rfl

/-! ## §2 — hits. -/

/-- An excerpt as the client has it. -/
def WorkerExcerpt.ofExcerpt (e : Excerpt) : WorkerExcerpt where
  range := e.range
  text := encode e.text
  truncated := e.truncated

/-- A hit as the client has it. -/
def WorkerHit.ofHit (h : Hit) : WorkerHit where
  path := encode h.path
  fileSha256 := encode h.fileSha256
  range := h.range
  excerpt := .ofExcerpt h.excerpt

theorem excerptSchema_json {e : Excerpt} (hstart : e.range.start ≤ MAX_SAFE_INTEGER)
    (hstop : e.range.stop ≤ MAX_SAFE_INTEGER) (htext : utf8Len e.text ≤ 4096) :
    excerptSchema e.json = some (.ofExcerpt e) := by
  have hjson : e.json = .obj (named [("range", e.range.json), ("text", strJson e.text),
      ("truncated", .bool e.truncated)]) := rfl
  have hlen : (encode e.text).length ≤ 4096 := (length_encode_le e.text).trans htext
  rw [hjson]
  refine some_bind (strictObject_named (by simp)) ?_
  refine some_bind (required_named (by simp) (by simp) (rangeSchema_json hstart hstop)) ?_
  refine some_bind (required_named (by simp) (by simp)
    (boundedString_strJson ⟨Nat.zero_le _, hlen⟩)) ?_
  exact some_bind (required_named (v := .bool e.truncated) (by simp) (by simp) rfl) rfl

section Hits

variable {engine : Engine} {bytes : Bytes} {hit : Hit}

/-- What the numbers and texts of a well cut hit are bounded by. -/
structure InBounds (hit : Hit) : Prop where
  range : hit.range.start ≤ hit.range.stop ∧ hit.range.stop ≤ 16777216
  excerpt : hit.excerpt.range.start ≤ hit.excerpt.range.stop ∧ hit.excerpt.range.stop ≤ hit.range.stop
  text : utf8Len hit.excerpt.text = hit.excerpt.range.stop - hit.excerpt.range.start
  short : hit.excerpt.range.stop - hit.excerpt.range.start ≤ 4096

theorem inBounds_of_wellCut (h : WellCut engine bytes hit) (htext : isText bytes = true)
    (hlen : bytes.length ≤ 16777216) : InBounds hit where
  range := ⟨h.range.ordered, h.stop_le.trans hlen⟩
  excerpt := ⟨h.excerpt.ordered, h.last⟩
  text := h.utf8Len_text htext
  short := by
    have := h.short
    omega

theorem workerHitSchema_json (hsha : ∀ b, (engine.sha256 b).length = 32)
    (h : WellCut engine bytes hit) (htext : isText bytes = true) (hlen : bytes.length ≤ 16777216) :
    workerHitSchema hit.json = some (.ofHit hit) := by
  have hjson : hit.json = .obj (named [("path", strJson hit.path),
      ("fileSha256", strJson hit.fileSha256), ("range", hit.range.json),
      ("excerpt", hit.excerpt.json)]) := rfl
  have hb := inBounds_of_wellCut h htext hlen
  have hmax : 16777216 ≤ MAX_SAFE_INTEGER := by decide
  have hrange := hb.range
  have hexcerpt := hb.excerpt
  have hdigest : digestSchema (strJson hit.fileSha256) = some (encode hit.fileSha256) := by
    rw [h.digest]
    exact digestSchema_hex (hsha bytes)
  rw [hjson]
  refine some_bind (strictObject_named (by simp)) ?_
  refine some_bind (required_named (by simp) (by simp) (pathString_strJson h.path)) ?_
  refine some_bind (required_named (by simp) (by simp) hdigest) ?_
  have hr : rangeSchema hit.range.json = some hit.range := rangeSchema_json (by omega) (by omega)
  have he : excerptSchema hit.excerpt.json = some (.ofExcerpt hit.excerpt) :=
    excerptSchema_json (by omega) (by omega) (hb.text.trans_le hb.short)
  refine some_bind (required_named (by simp) (by simp) hr) ?_
  exact some_bind (required_named (by simp) (by simp) he) rfl

end Hits

/-! ## §3 — replies. -/

/-- What the worker relies on of the crates, and the client of the worker: the matches of a text lie in
it, and the elapsed time is no negative number. -/
structure Regular (engine : Engine) : Prop extends engine.Short where
  located : ∀ {pattern kind caseSensitive matcher},
    engine.matcher pattern kind caseSensitive = some matcher →
      ∀ bytes, isText bytes = true → Worker.Located matcher bytes
  nonNegative : ∀ elapsed,
    Schema.nonNegative (engine.elapsedMs elapsed).json = some (engine.elapsedMs elapsed)

/-- A success as the client has it. -/
def WorkerSuccess.ofSuccess (s : Success) : WorkerSuccess where
  id := encode s.id
  coverage := s.coverage
  reasons := s.reasons
  hits := s.hits.map .ofHit
  counts := s.counts
  policySnapshotHash := encode s.policySnapshotHash
  elapsedMs := s.elapsedMs

/-- An outcome of `search` as the client has it. -/
def WorkerResponse.ofOutcome (id : JsString) : Except Code Success → WorkerResponse
  | .ok success => .ok (.ofSuccess success)
  | .error code => .error id code

theorem choice_code (code : Code) : choice workerCodes code.json = some code := by
  cases code <;> decide +kernel

theorem choice_coverage (coverage : Coverage) :
    choice coverages (.str (units coverage.name)) = some coverage := by
  cases coverage <;> decide +kernel

theorem choice_units (text : String) : choice [(text, ())] (.str (units text)) = some () := by
  show (List.find? (fun entry : String × Unit => units entry.1 == units text) [(text, ())]).map _ = _
  rw [List.find?_cons_of_pos (by simp)]
  rfl

theorem int_one : int 1 1 (.nat 1) = some 1 := by decide

theorem natural_nat {n : Nat} (h : n ≤ MAX_SAFE_INTEGER) : natural (.nat n) = some n :=
  int_nat ⟨Nat.zero_le n, h, h⟩

theorem countsSchema_json {c : Counts} (h : c.visited ≤ MAX_SAFE_INTEGER ∧
    c.searched ≤ MAX_SAFE_INTEGER ∧ c.excluded ≤ MAX_SAFE_INTEGER ∧ c.failed ≤ MAX_SAFE_INTEGER ∧
      c.bytesRead ≤ MAX_SAFE_INTEGER) : countsSchema c.json = some c := by
  have hjson : c.json = .obj (named [("visited", .nat c.visited), ("searched", .nat c.searched),
      ("excluded", .nat c.excluded), ("failed", .nat c.failed), ("bytesRead", .nat c.bytesRead)]) := rfl
  rw [hjson]
  refine some_bind (strictObject_named (by simp)) ?_
  refine some_bind (required_named (by simp) (by simp) (natural_nat h.1)) ?_
  refine some_bind (required_named (by simp) (by simp) (natural_nat h.2.1)) ?_
  refine some_bind (required_named (by simp) (by simp) (natural_nat h.2.2.1)) ?_
  refine some_bind (required_named (by simp) (by simp) (natural_nat h.2.2.2.1)) ?_
  exact some_bind (required_named (by simp) (by simp) (natural_nat h.2.2.2.2)) rfl

/-- A failure is read as the error it is. -/
theorem workerResponseSchema_failure {f : Failure} (hv : f.v = 1)
    (hid : 1 ≤ (encode f.id).length ∧ (encode f.id).length ≤ 128) :
    workerResponseSchema f.json = some (.error (encode f.id) f.code) := by
  have hjson : f.json = .obj (named [("v", .nat f.v), ("id", strJson f.id),
      ("status", .str (units "error")), ("code", f.code.json)]) := rfl
  have herror : workerErrorSchema f.json = some (.error (encode f.id) f.code) := by
    rw [hjson, hv]
    refine some_bind (strictObject_named (by simp)) ?_
    refine some_bind (required_named (v := .nat 1) (by simp) (by simp) int_one) ?_
    refine some_bind (required_named (by simp) (by simp) (boundedString_strJson hid)) ?_
    refine some_bind (required_named (by simp) (by simp) (choice_units "error")) ?_
    exact some_bind (required_named (by simp) (by simp) (choice_code f.code)) rfl
  rw [workerResponseSchema, herror]

/-- What the schema asks of a success. -/
structure Readable (s : Success) : Prop where
  v : s.v = 1
  id : 1 ≤ (encode s.id).length ∧ (encode s.id).length ≤ 128
  reasons : s.reasons.length ≤ 14
  hits : s.hits.length ≤ 1000 ∧ ∀ hit ∈ s.hits, workerHitSchema hit.json = some (.ofHit hit)
  counts : countsSchema s.counts.json = some s.counts
  snapshot : ∃ digest : Bytes, digest.length = 32 ∧ s.policySnapshotHash = hex digest
  elapsed : Schema.nonNegative s.elapsedMs.json = some s.elapsedMs
  matcherVersion : s.matcherVersion = Worker.MATCHER

theorem workerResponseSchema_success {s : Success} (h : Readable s) :
    workerResponseSchema s.json = some (.ok (.ofSuccess s)) := by
  have hjson : s.json = .obj (named [("v", .nat s.v), ("id", strJson s.id), ("status", .str (units "ok")),
      ("coverage", .str (units s.coverage.name)), ("reasons", .arr (s.reasons.map Code.json)),
      ("matches", .arr (s.hits.map Hit.json)), ("counts", s.counts.json),
      ("elapsedMs", s.elapsedMs.json), ("policySnapshotHash", strJson s.policySnapshotHash),
      ("matcherVersion", strJson s.matcherVersion)]) := rfl
  have herror : workerErrorSchema s.json = none := by
    -- `coverage`, the fourth member, is no member of an error
    have hcoverage : ∀ fields : List (String × Json), ("coverage", Json.str (units s.coverage.name)) ∈ fields →
        workerErrorSchema (.obj (named fields)) = none := by
      intro fields hmem
      have hextra : strictObject ["v", "id", "status", "code"] (.obj (named fields)) = none :=
        strictObject_extra hmem (by simp)
      rw [workerErrorSchema, hextra]
      rfl
    rw [hjson]
    exact hcoverage _ (by simp)
  have hreasons : array (choice workerCodes) 14 (.arr (s.reasons.map Code.json)) = some s.reasons := by
    have hmap : array (choice workerCodes) 14 (.arr (s.reasons.map Code.json))
        = some (s.reasons.map fun code => code) := array_map h.reasons fun code _ => choice_code code
    rwa [List.map_id'] at hmap
  have hdigest : digestSchema (strJson s.policySnapshotHash) = some (encode s.policySnapshotHash) := by
    obtain ⟨digest, hlen, heq⟩ := h.snapshot
    rw [heq]
    exact digestSchema_hex hlen
  have hmatcher : choice [("grep-regex-0.1.14", ())] (strJson s.matcherVersion) = some () := by
    rw [h.matcherVersion]
    exact choice_units "grep-regex-0.1.14"
  have hhits : array workerHitSchema 1000 (.arr (s.hits.map Hit.json)) = some (s.hits.map .ofHit) :=
    array_map h.hits.1 h.hits.2
  have hsuccess : workerSuccessSchema s.json = some (.ok (.ofSuccess s)) := by
    rw [hjson, h.v]
    refine some_bind (strictObject_named (by simp)) ?_
    refine some_bind (required_named (v := .nat 1) (by simp) (by simp) int_one) ?_
    refine some_bind (required_named (by simp) (by simp) (boundedString_strJson h.id)) ?_
    refine some_bind (required_named (by simp) (by simp) (choice_units "ok")) ?_
    refine some_bind (required_named (by simp) (by simp) (choice_coverage s.coverage)) ?_
    refine some_bind (required_named (by simp) (by simp) hreasons) ?_
    refine some_bind (required_named (by simp) (by simp) hhits) ?_
    refine some_bind (required_named (by simp) (by simp) h.counts) ?_
    refine some_bind (required_named (by simp) (by simp) hdigest) ?_
    refine some_bind (required_named (by simp) (by simp) h.elapsed) ?_
    exact some_bind (required_named (by simp) (by simp) hmatcher) rfl
  rw [workerResponseSchema, herror]
  exact hsuccess

/-! ## §4 — the checks behind the schema. -/

/-- **Every well-cut hit passes the client's checks.** -/
theorem hitInvariants_ofHit {engine : Engine} {bytes : Bytes} {hit : Hit} {request : WorkerRequest}
    (h : WellCut engine bytes hit) (htext : isText bytes = true)
    (hlen : bytes.length ≤ request.maxFileBytes) : hitInvariants request (.ofHit hit) = true := by
  have hrange := h.range.ordered
  have hstop := h.stop_le.trans hlen
  have hfirst := h.first
  have hordered := h.excerpt.ordered
  have hlast := h.last
  have hshort := h.short
  have hbytes : Utf16.byteLength (encode hit.excerpt.text)
      = hit.excerpt.range.stop - hit.excerpt.range.start := by
    rw [byteLength_encode, h.utf8Len_text htext]
  have htruncated : hit.excerpt.truncated = decide (hit.excerpt.range.stop < hit.range.stop) := by
    rw [h.truncated, decide_eq_decide]
    omega
  simp only [hitInvariants, WorkerHit.ofHit, WorkerExcerpt.ofExcerpt, hbytes, htruncated,
    isWellFormed_encode, Bool.and_eq_true, decide_eq_true_eq, beq_iff_eq, and_true]
  omega

section Success

variable {σ φ : Type} {job : Job σ φ} {log : List (Worker.Event φ)} {s : Success}

/-- The file a hit of a success comes from. -/
theorem exists_wellCut (hregular : Regular job.engine) (hvalid : Valid job.request)
    (hmatcher : job.engine.matcher job.request.pattern job.request.kind job.request.caseSensitive
      = some job.matcher) (h : Worker.Promised job log s) {hit : Hit} (hhit : hit ∈ s.hits) :
    ∃ bytes, WellCut job.engine bytes hit ∧ isText bytes = true ∧
      bytes.length ≤ job.request.maxFileBytes := by
  obtain ⟨fd, bytes, -, hlen, htext, hreported⟩ := (h.evidenced hit hhit).source
  exact ⟨bytes, hreported.wellCut hvalid (hregular.located hmatcher bytes htext), htext, hlen⟩

theorem readable_of_promised (hregular : Regular job.engine) (hvalid : Valid job.request)
    (hmatcher : job.engine.matcher job.request.pattern job.request.kind job.request.caseSensitive
      = some job.matcher) (h : Worker.Promised job log s) (hmost : s.hits.length ≤ 1000) : Readable s where
  v := h.labelled.v
  id := by
    rw [h.labelled.id]
    constructor
    · refine List.length_pos_iff.2 fun hnil => hvalid.id_ne ?_
      exact encode_injective hnil
    · exact (length_encode_le _).trans hvalid.id_length
  reasons := h.reasoned.length_le.trans (by decide)
  hits := by
    refine ⟨hmost, fun hit hhit => ?_⟩
    obtain ⟨bytes, hcut, htext, hlen⟩ := exists_wellCut hregular hvalid hmatcher h hhit
    exact workerHitSchema_json hregular.sha256 hcut htext (hlen.trans hvalid.maxFileBytes.2)
  counts := by
    have hmax : 100000 * 16777216 ≤ MAX_SAFE_INTEGER := by decide
    have hcounted := h.counted
    have hvisited := h.visited.trans hvalid.maxEntries.2
    have hfailed := h.failed
    have hbytes : s.counts.bytesRead ≤ 100000 * 16777216 :=
      h.bytesRead.trans (Nat.mul_le_mul (by omega) hvalid.maxFileBytes.2)
    exact countsSchema_json (by omega)
  snapshot := by
    obtain ⟨observations, hs⟩ := h.snapshot
    exact ⟨_, hregular.sha256 _, hs⟩
  elapsed := by
    obtain ⟨elapsed, he⟩ := h.elapsed
    rw [he]
    exact hregular.nonNegative elapsed
  matcherVersion := h.labelled.matcherVersion

theorem successInvariants_ofSuccess {request : WorkerRequest} {remaining : Nat}
    (hsame : SameRequest request remaining job.request) (hregular : Regular job.engine)
    (hvalid : Valid job.request)
    (hmatcher : job.engine.matcher job.request.pattern job.request.kind job.request.caseSensitive
      = some job.matcher) (h : Worker.Promised job log s) (hmost : s.hits.length ≤ job.request.maxMatches) :
    successInvariants request (.ofSuccess s) = true := by
  have hcounted := h.counted
  have hcoverage : (s.coverage == .complete) = s.reasons.isEmpty := by
    rw [Bool.eq_iff_iff, beq_iff_eq, List.isEmpty_iff]
    exact h.reasoned.coverage
  have hfailed : (s.reasons.isEmpty && decide (s.counts.failed > 0)) = false := by
    rw [Bool.and_eq_false_iff, decide_eq_false_iff_not]
    by_cases hzero : s.counts.failed = 0
    · exact .inr (by omega)
    · exact .inl (List.isEmpty_eq_false_iff.2 (h.reasoned.failed hzero))
  have hhits : (s.hits.map WorkerHit.ofHit).all (hitInvariants request) = true := by
    rw [List.all_eq_true]
    intro x hx
    obtain ⟨hit, hhit, rfl⟩ := List.mem_map.1 hx
    obtain ⟨bytes, hcut, htext, hlen⟩ := exists_wellCut hregular hvalid hmatcher h hhit
    exact hitInvariants_ofHit hcut htext (hsame.maxFileBytes ▸ hlen)
  have hmatches : (s.hits.map WorkerHit.ofHit).length ≤ request.maxMatches := by
    rw [List.length_map, ← hsame.maxMatches]
    exact hmost
  have hvisited : s.counts.visited ≤ request.maxEntries := hsame.maxEntries ▸ h.visited
  have hbytes : s.counts.bytesRead ≤ s.counts.searched * request.maxFileBytes :=
    hsame.maxFileBytes ▸ h.bytesRead
  have hnodup := h.reasoned.nodup
  have hsearched : s.counts.searched ≤ s.counts.visited := by omega
  simp only [successInvariants, WorkerSuccess.ofSuccess, hcoverage, hhits, hmatches, hvisited, hsearched,
    hbytes, hnodup, decide_true, beq_self_eq_true, Bool.and_self, Bool.true_and, Bool.and_true,
    Bool.not_eq_true']
  exact hfailed

end Success

/-! ## §5 — a reply to a request of the client. -/

theorem responseBytes_of_accepted {id : JsString} {input : List (List UInt16 × Json)}
    {r : WorkerRequest} (h : acceptInput id input = some r) : 2048 ≤ r.responseBytes := by
  obtain ⟨hschema, -⟩ := Option.filter_eq_some_iff.1 h
  obtain ⟨_, -, h⟩ := bind_some hschema
  obtain ⟨pattern, -, h⟩ := bind_some h
  obtain ⟨kind, -, h⟩ := bind_some h
  obtain ⟨caseSensitive, -, h⟩ := bind_some h
  obtain ⟨maxMatches, -, h⟩ := bind_some h
  obtain ⟨maxFileBytes, -, h⟩ := bind_some h
  obtain ⟨responseBytes, hresponse, h⟩ := bind_some h
  obtain ⟨deadlineMs, -, h⟩ := bind_some h
  obtain ⟨scope, -, h⟩ := bind_some h
  obtain ⟨validate, -, h⟩ := bind_some h
  obtain ⟨read, -, h⟩ := bind_some h
  obtain ⟨maxEntries, -, h⟩ := bind_some h
  obtain ⟨maxDepth, -, h⟩ := bind_some h
  obtain rfl := Option.some.inj h
  exact (required_int hresponse).1

/-- The id of a request is short and of ASCII characters. -/
theorem length_encode_requestId {k : Nat} (hk : k ≤ MAX_SAFE_INTEGER) :
    1 ≤ (requestId k).length ∧ (requestId k).length ≤ 128 := by
  have hascii : ∀ c ∈ "q-".toList ++ Nat.toDigits 10 k, c.toNat < 0x80 := by
    intro c hc
    rcases List.mem_append.1 hc with hc | hc
    · have hpair : "q-".toList = ['q', '-'] := rfl
      rw [hpair, List.mem_cons, List.mem_singleton] at hc
      rcases hc with rfl | rfl
      · decide
      · decide
    · have hdigit := Nat.isDigit_of_mem_toDigits (by decide) (by decide) hc
      have hnine : c.toNat ≤ 57 := (Char.isDigit_iff_toNat.1 hdigit).2
      omega
  have hlen := length_requestId hk
  have hle := length_encode_le ("q-".toList ++ Nat.toDigits 10 k)
  rw [Json.utf8Len_ascii hascii] at hle
  refine ⟨List.length_pos_iff.2 fun hnil => ?_, hle.trans hlen⟩
  have hchars : "q-".toList ++ Nat.toDigits 10 k = [] := encode_injective hnil
  cases hchars

/-- A failure for a request that was carried is read as its error. -/
theorem workerResponseSchema_error {k remaining : Nat} {request : WorkerRequest} {r : Worker.Request}
    (hk : k ≤ MAX_SAFE_INTEGER) (hspec : Accepted k request) (hsame : SameRequest request remaining r) (code : Code) :
    workerResponseSchema (reply r (.error code)) = some (.error request.id code) := by
  have hid : r.id.take 128 = r.id := by
    have hr : r.id = "q-".toList ++ Nat.toDigits 10 k := encode_injective (hsame.id.trans hspec.id)
    rw [hr]
    exact List.take_of_length_le (length_requestId hk)
  have hidlen : 1 ≤ (encode (r.id.take 128)).length ∧ (encode (r.id.take 128)).length ≤ 128 := by
    rw [hid, hsame.id, hspec.id]
    exact length_encode_requestId hk
  have hschema : workerResponseSchema (reply r (.error code)) = some (.error (encode (r.id.take 128)) code) :=
    workerResponseSchema_failure rfl hidlen
  have hsent : encode (r.id.take 128) = request.id := by rw [hid, hsame.id]
  rwa [hsent] at hschema

/-- A success for a request that was carried passes the client's validation, if it is within its limits. -/
theorem validate_success {σ φ : Type} {engine : Engine} {os : Worker.Os σ φ} {root : φ} {remaining : Nat}
    {request : WorkerRequest} {r : Worker.Request} {state : σ} {w' : Worker.World σ φ} {success : Success}
    (hsame : SameRequest request remaining r) (hregular : Regular engine)
    (h : Worker.search engine os root r ⟨state, []⟩ = (.ok success, w'))
    (hmost : success.hits.length ≤ r.maxMatches)
    (hsize : (toVec (reply r (.ok success))).length ≤ request.responseBytes) :
    validateWorkerResponse (reply r (.ok success)) request (toVec (reply r (.ok success))).length
      = some (.ok (.ofSuccess success)) := by
  obtain ⟨matcher, deadline, hmatcher, hpromised⟩ := Worker.search_promised h
  obtain ⟨matcher', scope, hchecked, -⟩ := Worker.search_ok h
  have hvalid : Valid r := Worker.validate_ok hchecked
  have hreadable := readable_of_promised hregular hvalid hmatcher hpromised
    (hmost.trans hvalid.maxMatches.2)
  have hschema : workerResponseSchema (reply r (.ok success)) = some (.ok (.ofSuccess success)) :=
    workerResponseSchema_success hreadable
  have hinvariants := successInvariants_ofSuccess hsame hregular hvalid hmatcher hpromised hmost
  have hid : (WorkerSuccess.ofSuccess success).id = request.id := by
    show encode success.id = request.id
    rw [hpromised.labelled.id, hsame.id]
  simp only [validateWorkerResponse, hschema]
  rw [if_neg (by simp [WorkerResponse.id, hid, hsize]), if_pos hinvariants]

/-- A reply to a request that was carried passes the client's validation and is read as its outcome. -/
theorem validate_reply {σ φ : Type} {engine : Engine} {os : Worker.Os σ φ} {root : φ} {k remaining : Nat}
    {request : WorkerRequest} {r : Worker.Request} {state : σ} {w' : Worker.World σ φ}
    {out : Except Code Success} (hk : k ≤ MAX_SAFE_INTEGER) (hspec : Accepted k request)
    (hbudget : 2048 ≤ request.responseBytes) (hsame : SameRequest request remaining r)
    (hregular : Regular engine) (hos : os.Distinct)
    (h : Worker.search engine os root r ⟨state, []⟩ = (out, w')) :
    validateWorkerResponse (reply r out) request (toVec (reply r out)).length
      = some (.ofOutcome request.id out) := by
  rcases out with code | success
  · have hfailure := Worker.size_reply_error r code
    rw [← Worker.length_toVec] at hfailure
    have hsize := hfailure.trans hbudget
    have hschema := workerResponseSchema_error hk hspec hsame code
    simp only [validateWorkerResponse, hschema]
    rw [if_neg (by simp [WorkerResponse.id, hsize])]
    rfl
  · obtain ⟨matcher, deadline, hmatcher, hpromised⟩ := Worker.search_promised h
    obtain ⟨matcher', scope, hchecked, -⟩ := Worker.search_ok h
    have hmost : success.hits.length ≤ r.maxMatches := by
      cases hread : r.read with
      | none => exact hpromised.most hread
      | some read =>
        exact (Worker.search_single hread h ((Worker.search_distinct hos h).metOnce _)).trans
          (Worker.validate_ok hchecked).maxMatches.1
    have hsize : (toVec (reply r (.ok success))).length ≤ request.responseBytes := by
      rw [Worker.length_toVec, ← hsame.responseBytes]
      exact (Worker.size_reply_ok hregular.toShort h fun read _ => (Worker.search_distinct hos h).metOnce read.path).1
    exact validate_success hsame hregular h hmost hsize

/-- **The client never rejects an honest worker**: the reply to a request that the client sent and the
worker decoded is accepted, and read as the outcome it was written for, whatever the system answers as
long as no directory stream yields a name twice. -/
theorem reply_accepted {σ φ : Type} {engine : Engine} {os : Worker.Os σ φ} {root : φ} {k remaining : Nat}
    {input : List (List UInt16 × Json)} {request : WorkerRequest} {r : Worker.Request} {state : σ}
    {w' : Worker.World σ φ} {out : Except Code Success} (hk : k ≤ MAX_SAFE_INTEGER)
    (haccept : acceptInput (requestId k) input = some request) (hremaining : remaining ≤ request.deadlineMs)
    (hdecode : fromSlice (requestBody request remaining) = some r) (hregular : Regular engine)
    (hos : os.Distinct) (h : Worker.search engine os root r ⟨state, []⟩ = (out, w')) :
    ∃ message, (Utf8.decode (toVec (reply r out))).bind Json.parse = some message ∧
      validateWorkerResponse message request (toVec (reply r out)).length
        = some (.ofOutcome request.id out) := by
  have hspec := acceptInput_spec haccept
  have hsame := sameRequest_of_decoded hspec hremaining hdecode
  have hparse : (Utf8.decode (toVec (reply r out))).bind Json.parse = some (reply r out) := by
    rw [toVec, Utf8.decode_encode]
    exact Json.parse_print _
  exact ⟨reply r out, hparse,
    validate_reply hk hspec (responseBytes_of_accepted haccept) hsame hregular hos h⟩

theorem regular_plain : Regular Engine.plain where
  toShort := Worker.short_plain
  located {pattern kind _ matcher} h bytes _ m hm := by
    cases kind with
    | literal =>
      have hmatcher : Worker.literalMatches (Utf8.encode pattern) 0 0 = matcher := Option.some.inj h
      rw [← hmatcher] at hm
      have hmem : m.1 ≤ m.2 ∧ m.2 ≤ 0 + bytes.length := Worker.mem_literalMatches hm
      rwa [Nat.zero_add] at hmem
    | regex => cases h
  nonNegative _ := rfl

/-- What the worker reads of `plainRequest`. -/
def plainDecoded : Worker.Request where
  v := 1
  id := "q-1".toList
  pattern := ['a']
  kind := .literal
  caseSensitive := true
  maxMatches := 100
  maxFileBytes := 1048576
  responseBytes := 65536
  deadlineMs := 10000
  maxEntries := 100000
  maxDepth := 64

/-- The tree with one file, as a system whose every directory stream is that of the root. -/
def oneStream : Worker.Os Nat Worker.Node :=
  { Worker.oneFile.os with dir := fun _ s => (some (.name (.ofStr ['a'] Worker.slash_not_mem_a) fun _ => .done), s) }

theorem reply_accepted_oneStream : ∃ success w',
    Worker.search Engine.plain oneStream Worker.oneFile plainDecoded ⟨0, []⟩ = (.ok success, w') ∧
      success.hits.length = 1 ∧ ∃ message,
        (Utf8.decode (toVec (reply plainDecoded (.ok success)))).bind Json.parse = some message ∧
          validateWorkerResponse message plainRequest (toVec (reply plainDecoded (.ok success))).length
            = some (.ok (.ofSuccess success)) := by
  have haccept : acceptInput (requestId 1) [(units "pattern", .str (units "a"))] = some plainRequest := by
    decide +kernel
  have hdecode : fromSlice (requestBody plainRequest 10000) = some plainDecoded := by decide +kernel
  have hos : oneStream.Distinct := by
    intro _ _ stream h
    cases h
    exact ⟨List.not_mem_nil, fun _ => trivial⟩
  have hrun : (Worker.search Engine.plain oneStream Worker.oneFile plainDecoded ⟨0, []⟩).1.toOption.map
      (fun s => s.hits.length) = some 1 := by decide +kernel
  rcases h : Worker.search Engine.plain oneStream Worker.oneFile plainDecoded ⟨0, []⟩
    with ⟨code | success, w'⟩
  · rw [h] at hrun
    cases hrun
  · rw [h] at hrun
    exact ⟨success, w', rfl, Option.some.inj hrun,
      reply_accepted (by decide) haccept (by decide) hdecode regular_plain hos h⟩

end JevGrep.Client
