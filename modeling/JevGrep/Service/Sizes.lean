/-
# `JevGrep.Service.Sizes` — what a read takes, next to a search under the same policy.

A read carries the scope of its search in its request and in its response. A response of a search that is complete
has the scope too, and each of its evidences with more around it than the response of a read has.

* §1 strings that are written as they are; §2 responses; §3 scopes; §4 the body of a read; §5 the response
of a read.
-/
import JevGrep.Service.Tracing

namespace JevGrep.Service

open JevGrep.Lib JevGrep.Lib.Schema
open JevGrep.Lib.Utf16 (encode)
open JevGrep.Contracts (JsString)
open JevGrep.Worker (Bytes)
open JevGrep.Workspace (SearchRequest)
open JevGrep.Client (WorkerSuccess digits memberBytes optionBytes optionBytes_some readBytes requestBody requestId
  scopeBytes size_objectOf size_str)

/-! ## §1 — strings that are written as they are. -/

/-- An id is written as it is. -/
theorem escapedBytes_id {s : JsString} (h : isId s = true) : Json.escapedBytes s = s.length := by
  have hbyte : ∀ n < 0x7b, 0x2d ≤ n → n ≠ 0x5c → Json.escapedPointBytes (.scalar (Char.ofNat n)) = 1 := by decide
  have hunits : ∀ u ∈ s, 0x2d ≤ u.toNat ∧ u.toNat < 0x7b ∧ u.toNat ≠ 0x5c := by
    intro u hu
    rw [isId, Bool.and_eq_true, List.all_eq_true] at h
    have hu := h.2 u hu
    simp only [Bool.or_eq_true, Bool.and_eq_true, decide_eq_true_eq, beq_iff_eq] at hu
    omega
  clear h
  induction s with
  | nil => rfl
  | cons u rest ih =>
    obtain ⟨hlow, hhigh, hbackslash⟩ := hunits u List.mem_cons_self
    have hpoints : Utf16.points (u :: rest) = .scalar (Char.ofNat u.toNat) :: Utf16.points rest := by
      refine Utf16.points_single ?_ ?_
      · simp only [Utf16.isHigh, Bool.and_eq_false_iff, decide_eq_false_iff_not]
        omega
      · simp only [Utf16.isLow, Bool.and_eq_false_iff, decide_eq_false_iff_not]
        omega
    have hrest : Json.escapedBytes rest = rest.length := ih fun v hv => hunits v (List.mem_cons_of_mem _ hv)
    rw [Json.escapedBytes, hpoints, List.foldr_cons, ← Json.escapedBytes, hrest, hbyte _ hhigh hlow hbackslash,
      List.length_cons, Nat.add_comm]

theorem escapedBytes_digest {s : JsString} (h : Client.isDigest s = true) : Json.escapedBytes s = 64 := by
  have hlength := h
  rw [Client.isDigest, Bool.and_eq_true, beq_iff_eq] at hlength
  rw [escapedBytes_id (isId_of_isDigest h), hlength.1]

/-- The id of a request is written as it is. -/
theorem escapedBytes_requestId {k : Nat} (hk : k ≤ MAX_SAFE_INTEGER) : Json.escapedBytes (requestId k) ≤ 18 := by
  have hplain : ∀ c ∈ "q-".toList ++ Nat.toDigits 10 k, Json.escapedPointBytes (.scalar c) = 1 := by
    have hdigit : ∀ n < 0x3a, 0x30 ≤ n → Json.escapedPointBytes (.scalar (Char.ofNat n)) = 1 := by decide
    intro c hc
    rcases List.mem_append.1 hc with hc | hc
    · have hpair : "q-".toList = ['q', '-'] := rfl
      rw [hpair, List.mem_cons, List.mem_singleton] at hc
      rcases hc with rfl | rfl <;> decide
    · have hrange := Char.isDigit_iff_toNat.1 (Nat.isDigit_of_mem_toDigits (by decide) (by decide) hc)
      have hnine : c.toNat ≤ 57 := hrange.2
      have hone := hdigit c.toNat (by omega) hrange.1
      rwa [Char.ofNat_toNat] at hone
  have hlength : ("q-".toList ++ Nat.toDigits 10 k).length ≤ 18 := by
    have hdigits : (Nat.toDigits 10 k).length ≤ 16 := by
      rw [Nat.length_toDigits_le_iff (by decide) (by decide)]
      exact Nat.lt_of_le_of_lt hk (by decide)
    rw [List.length_append]
    show 2 + _ ≤ 18
    omega
  rw [requestId, Json.escapedBytes, Utf16.points_encode]
  generalize "q-".toList ++ Nat.toDigits 10 k = cs at hplain hlength
  have hsum : (cs.map Utf16.Point.scalar).foldr (fun p n => Json.escapedPointBytes p + n) 0 = cs.length := by
    clear hlength
    induction cs with
    | nil => rfl
    | cons c cs ih =>
      rw [List.map_cons, List.foldr_cons, ih fun d hd => hplain d (List.mem_cons_of_mem _ hd),
        hplain c List.mem_cons_self, List.length_cons, Nat.add_comm]
  rw [hsum]
  exact hlength

/-- The member names of a response are written as they are. -/
theorem escapedBytes_members : ∀ m ∈ [("version", 7), ("requestId", 9), ("status", 6), ("scope", 5), ("issues", 6),
    ("result", 6), ("operation", 9), ("evidence", 8), ("capturedAt", 10), ("source", 6), ("kind", 4),
    ("startedAt", 9), ("endedAt", 7), ("coverage", 8), ("matches", 7), ("provenance", 10), ("queryKind", 9),
    ("matcherVersion", 14), ("id", 2), ("path", 4), ("fileSha256", 10), ("range", 5), ("excerpt", 7), ("ok", 2),
    ("exact", 5), ("live-read", 9), ("complete", 8), ("read-verified", 13), ("read-fresh", 10)],
    Json.escapedBytes (units m.1) = m.2 := by
  decide +kernel

/-! ## §2 — responses. -/

/-- The evidence of a hit is the hit with an id of 64 characters. -/
theorem size_evidence {sha256 : Bytes → Bytes} (hsha : ∀ b, (sha256 b).length = 32) (a : Workspace.Answer)
    (hit : Worker.Hit) : Json.size (evidence sha256 a (.ofHit hit)).json = 72 + Json.size hit.json := by
  have hnames := escapedBytes_members
  simp only [List.forall_mem_cons] at hnames
  have hid : Json.escapedBytes (evidence sha256 a (.ofHit hit)).id = 64 :=
    escapedBytes_digest (isDigest_fingerprint hsha _)
  have hjson : hit.json = Client.objectOf [("path", some (.str (encode hit.path))),
      ("fileSha256", some (.str (encode hit.fileSha256))), ("range", some (Client.rangeJson hit.range)),
      ("excerpt", some (excerptJson (.ofExcerpt hit.excerpt)))] := rfl
  have hevidence : (evidence sha256 a (.ofHit hit)).json
      = Client.objectOf [("id", some (.str (evidence sha256 a (.ofHit hit)).id)), ("path", some (.str (encode hit.path))),
        ("fileSha256", some (.str (encode hit.fileSha256))), ("range", some (Client.rangeJson hit.range)),
        ("excerpt", some (excerptJson (.ofExcerpt hit.excerpt)))] := rfl
  rw [hjson, hevidence]
  simp only [size_objectOf, List.foldr_cons, List.foldr_nil, memberBytes, optionBytes_some, size_str, hid, hnames]
  omega

/-- What a response takes besides its scope and its result. -/
theorem bytes_ok (d : Dates) (id : JsString) (shown : EffectiveScope) (result : Result) :
    (Response.ok id shown [] result).bytes d
      = 73 + Json.escapedBytes id + Json.size shown.json + Json.size (result.json d) := by
  have hnames := escapedBytes_members
  simp only [List.forall_mem_cons] at hnames
  have hissues : Json.size (.arr (([] : List Issue).map Issue.json)) = 2 := rfl
  have hone : Json.size (.nat 1) = 1 := by decide +kernel
  simp only [Response.bytes, Response.json, size_objectOf, List.foldr_cons, List.foldr_nil, memberBytes, optionBytes_some,
    size_str, hissues, hone, hnames]
  omega

/-- The result of a read. -/
theorem size_read_le (d : Dates) (operation : ReadOperation) (e : Evidence) (capturedAt : Nat) :
    Json.size ((Result.read operation e capturedAt).json d)
      ≤ 57 + Json.size e.json + Json.escapedBytes (d.iso capturedAt) := by
  have hnames := escapedBytes_members
  simp only [List.forall_mem_cons] at hnames
  have hoperation : Json.size operation.json ≤ 15 := by
    cases operation with
    | verified digest =>
      rw [ReadOperation.json, size_str]
      simp only [hnames]
      exact Nat.le_refl 15
    | fresh =>
      rw [ReadOperation.json, size_str]
      simp only [hnames]
      decide
  simp only [Result.json, size_objectOf, List.foldr_cons, List.foldr_nil, memberBytes, optionBytes_some, size_str,
    hnames]
  omega

/-- A match takes its evidence and what is said of its provenance. -/
theorem size_match_le (w : World) (a : Workspace.Answer) (kind : Worker.QueryKind) (x : Client.WorkerHit) :
    100 + Json.size (evidence w.sha256 a x).json ≤ Json.size (published w a kind x).json := by
  have hnames := escapedBytes_members
  simp only [List.forall_mem_cons] at hnames
  have hversion : Json.size (.str MATCHER_VERSION) = 19 := by decide +kernel
  have hkind : 7 ≤ Json.size (Client.kindJson kind) := by cases kind <;> decide +kernel
  simp only [ExactMatch.json, published, size_objectOf, List.foldr_cons, List.foldr_nil, memberBytes, optionBytes_some,
    size_str, hnames, hversion]
  omega

theorem sizeItems_pos (items : List Json) : 1 ≤ Json.sizeItems items := by
  cases items with
  | nil => exact Nat.le_refl 1
  | cons v rest =>
    rw [Json.sizeItems]
    omega

/-- Each item of an array is within its size. -/
theorem size_item_le {items : List Json} {v : Json} (h : v ∈ items) : Json.size v + 2 ≤ Json.size (.arr items) := by
  have hitems : ∀ items : List Json, v ∈ items → Json.size v + 2 ≤ Json.sizeItems items := by
    intro items
    induction items with
    | nil => exact fun h => absurd h List.not_mem_nil
    | cons first rest ih =>
      intro h
      have hpos := sizeItems_pos rest
      rw [Json.sizeItems]
      rcases List.mem_cons.1 h with rfl | h
      · omega
      · have := ih h
        omega
  cases items with
  | nil => exact absurd h List.not_mem_nil
  | cons first rest =>
    have hpos := sizeItems_pos rest
    rw [Json.size]
    rcases List.mem_cons.1 h with rfl | h
    · omega
    · have := hitems rest h
      omega

/-- A complete exact response has room for each of its evidences. -/
theorem bytes_exact_ge {d : Dates} (hiso : ∀ n, 24 ≤ Json.escapedBytes (d.iso n)) {id : JsString}
    {shown : EffectiveScope} {startedAt endedAt : Nat} {hits : List ExactMatch} {m : ExactMatch} (h : m ∈ hits) :
    244 + Json.size shown.json + Json.size m.json ≤ (Response.ok id shown [] (.exact startedAt endedAt .complete hits)).bytes d := by
  have hnames := escapedBytes_members
  simp only [List.forall_mem_cons] at hnames
  have hmatches : Json.size m.json + 2 ≤ Json.size (.arr (hits.map ExactMatch.json)) :=
    size_item_le (List.mem_map_of_mem h)
  have hstarted := hiso startedAt
  have hended := hiso endedAt
  rw [bytes_ok]
  simp only [Result.json, ExactCoverage.json, size_objectOf, List.foldr_cons, List.foldr_nil, memberBytes,
    optionBytes_some, size_str, hnames]
  omega

/-! ## §3 — scopes. -/

/-- The bytes of a scope, from those of its members. -/
theorem size_effectiveScope (e : EffectiveScope) : Json.size e.json
    = 302 + Json.escapedBytes e.workspaceId + Json.escapedBytes e.policyId + Json.escapedBytes e.policyHash
      + Client.stringsBytes e.includes + Client.groupsBytes e.includeGroups + Client.stringsBytes e.exclude
      + Json.escapedBytes e.effectivePolicyHash + Json.escapedBytes e.policySnapshotHash
      + Client.boolBytes e.hidden + Client.boolBytes e.respectIgnore + digits e.maxFileBytes
      + Json.size e.counts.searched.json + Json.size e.counts.failed.json + Json.size e.counts.indexed.json
      + Json.size e.counts.excluded.json + Json.size e.counts.unsupported.json + Json.size e.counts.oversized.json := by
  have hnames : ∀ m ∈ [("workspaceId", 11), ("policyId", 8), ("policyHash", 10), ("include", 7), ("includeGroups", 13),
      ("exclude", 7), ("effectivePolicyHash", 19), ("policySnapshotHash", 18), ("hidden", 6), ("respectIgnore", 13),
      ("symlinks", 8), ("encoding", 8), ("maxFileBytes", 12), ("counts", 6), ("searched", 8), ("failed", 6),
      ("indexed", 7), ("excluded", 8), ("unsupported", 11), ("oversized", 9), ("reject", 6), ("utf-8", 5)],
      Json.escapedBytes (units m.1) = m.2 := by decide +kernel
  simp only [List.forall_mem_cons] at hnames
  simp only [EffectiveScope.json, size_objectOf, List.foldr_cons, List.foldr_nil, memberBytes, optionBytes_some, size_str,
    Client.size_strings, Client.size_groups, Client.size_bool, Client.size_nat, hnames]
  omega

theorem size_known_le {m n k : Nat} (h : m < 10 ^ (k + 1)) :
    Json.size (ReportedCount.known m).json ≤ Json.size (ReportedCount.known n).json + k := by
  have hmost : Json.size (.nat m) ≤ k + 1 := Worker.size_nat_le h (Nat.succ_pos k)
  have hleast : 1 ≤ Json.size (.nat n) := List.length_pos_iff.2 (Nat.toDigits_ne_nil)
  simp only [ReportedCount.json, size_objectOf, List.foldr_cons, List.foldr_nil, memberBytes, optionBytes_some]
  omega

/-- The scope of a read is at most five digits longer than that of a search under the same policy. -/
theorem size_scope_le {a a' : Workspace.Answer} {s s' : WorkerSuccess} (ha : a' = { a with result := a'.result })
    (hsnapshot : Json.escapedBytes s'.policySnapshotHash = Json.escapedBytes s.policySnapshotHash)
    (hsearched : s'.counts.searched < 10 ^ 6) (hfailed : s'.counts.failed = 0) :
    Json.size (scope a' s').json ≤ Json.size (scope a s).json + 5 := by
  have hcount : Json.size (ReportedCount.known s'.counts.searched).json
      ≤ Json.size (ReportedCount.known s.counts.searched).json + 5 := size_known_le hsearched
  have hzero : Json.size (ReportedCount.known s'.counts.failed).json
      ≤ Json.size (ReportedCount.known s.counts.failed).json + 0 := by
    rw [hfailed]
    exact size_known_le (by decide)
  -- the two differ in the hash of the snapshot, which has one length, and in two counts
  have hsame : scope a' s' = { scope a s with
      policySnapshotHash := s'.policySnapshotHash
      counts := (scope a' s').counts } := by
    rw [ha]
    rfl
  rw [size_effectiveScope, size_effectiveScope, hsame]
  simp only [scope] at *
  omega

/-- The scope of a request is within the scope that is shown of it. -/
theorem scopeBytes_le {a : Workspace.Answer} {policy : Workspace.Policy} {r : SearchRequest} (s : WorkerSuccess)
    (ha : a.policy = policy) (hscope : a.scope = Workspace.Registry.searchScope policy r) :
    scopeBytes a.scope ≤ Json.size (scope a s).json := by
  have hflags : a.scope.hidden = a.policy.hidden ∧ a.scope.respectIgnore = a.policy.respectIgnore := by
    rw [hscope, ha]
    exact ⟨rfl, rfl⟩
  rw [size_effectiveScope, scopeBytes, hflags.1, hflags.2]
  simp only [scope]
  omega

/-! ## §4 — the body of a read. -/

theorem digits_le {n k : Nat} (h : n < 10 ^ k) (hk : 0 < k) : digits n ≤ k := by
  rw [← Client.size_nat]
  exact Worker.size_nat_le h hk

/-- What a read takes besides its path. -/
theorem readBytes_le {q : Client.WorkerRead} (hask : Askable q) :
    readBytes q ≤ 157 + Json.escapedBytes q.path := by
  have hmax : MAX_SAFE_INTEGER < 10 ^ 16 := by decide
  have hstart : digits q.range.start ≤ 16 := digits_le (Nat.lt_of_le_of_lt hask.range.1 hmax) (by decide)
  have hstop : digits q.range.stop ≤ 16 := digits_le (Nat.lt_of_le_of_lt hask.range.2 hmax) (by decide)
  have hdigest : optionBytes (fun digest => 24 + Json.escapedBytes digest) q.expectedFileSha256 ≤ 88 := by
    cases h : q.expectedFileSha256 with
    | none => exact Nat.zero_le _
    | some digest =>
      rw [optionBytes_some, escapedBytes_digest (hask.digest digest h)]
  rw [readBytes, Client.rangeBytes]
  omega

/-- The body of a read, from the scope and the path. -/
theorem length_readBody_le {k n remaining responseBytes : Nat} {policy : Workspace.Policy} {request : Request}
    {q : Client.WorkerRead} {narrow : Option Workspace.Narrow} (hk : k ≤ MAX_SAFE_INTEGER)
    (hfile : policy.maxFileBytes ≤ 16777216) (hbytes : responseBytes ≤ 1048576) (hn : n ≤ 30000)
    (hask : Askable q) :
    (requestBody (sentOf k policy (readOf request q remaining responseBytes narrow)) n).length
      ≤ 387 + scopeBytes (Workspace.Registry.searchScope policy (readOf request q remaining responseBytes narrow))
        + Json.escapedBytes q.path := by
  have hpattern : Json.escapedBytes (units "scoped-read") = 11 := by decide +kernel
  have hid := escapedBytes_requestId hk
  have hmaxFile : digits policy.maxFileBytes ≤ 8 := digits_le (by omega) (by decide)
  have hresponse : digits responseBytes ≤ 7 := digits_le (by omega) (by decide)
  have hleft : digits n ≤ 5 := digits_le (by omega) (by decide)
  have hread := readBytes_le hask
  -- what the registry and the client write into every read
  have hfixed : Client.kindBytes .literal = 9 ∧ Client.boolBytes true = 4 ∧ digits 100 = 3 ∧ digits 100000 = 6 ∧
      digits 64 = 2 := by decide
  rw [Client.length_requestBody]
  simp only [Client.requestBytes, sentOf, readOf, optionBytes_some, hfixed, hpattern]
  have hnone : optionBytes (fun b => 21 + Client.boolBytes b) none = 0 := rfl
  rw [hnone]
  omega

/-! ## §5 — the response of a read. -/

section Read

variable {σ φ : Type} {site : Site σ φ} {visit : Visit σ} {request : Request} {t : Worker.Request} {success : Worker.Success}
  {w' : Worker.World σ φ}

/-- What is known of the success of a read: no reason, no failure, and short numbers. -/
structure Fetch (success : Worker.Success) : Prop where
  reasons : success.reasons = []
  failed : success.counts.failed = 0
  searched : success.counts.searched < 10 ^ 6
  snapshot : Client.isDigest (encode success.policySnapshotHash) = true

theorem fetch_of_run (hplatform : Platform site)
    (hrun : Worker.search site.engine site.os site.root t ⟨visit.searching, []⟩ = (.ok success, w'))
    (hread : t.read.isSome = true) : Fetch success := by
  obtain ⟨matcher, deadline, -, hpromised⟩ := Worker.search_promised hrun
  obtain ⟨_, _, hchecked, -⟩ := Worker.search_ok hrun
  have hvalid := Worker.validate_ok hchecked
  have hreasons : success.reasons = [] := (hpromised.read hread).1
  refine ⟨hreasons, Decidable.byContradiction fun hsome => hpromised.reasoned.failed hsome hreasons, ?_, ?_⟩
  · -- what is searched is visited, and the entries are limited
    have hcounted := hpromised.counted
    have hvisited := hpromised.visited.trans hvalid.maxEntries.2
    omega
  · obtain ⟨observations, hhash⟩ := hpromised.snapshot
    rw [hhash]
    exact Client.isDigest_hex (hplatform.regular.sha256 _)

/-- The response of a read has the evidence that an answer under the same registration gives the hit. -/
theorem readResponse_eq (w : World) (request : Request) {a a' : Workspace.Answer} (ha : a' = { a with result := a'.result })
    (hfetch : Fetch success) (operation : ReadOperation) (hit : Worker.Hit) :
    readResponse w request a' (.ofSuccess success) operation (.ofHit hit)
      = .ok request.requestId (scope a' (.ofSuccess success)) []
        (.read operation (evidence w.sha256 a (.ofHit hit)) (w.date 1)) := by
  have hissues : issuesOf (WorkerSuccess.ofSuccess success).reasons = [] := by
    show issuesOf success.reasons = []
    rw [hfetch.reasons]
    rfl
  have hevidence : evidence w.sha256 a' (.ofHit hit) = evidence w.sha256 a (.ofHit hit) := by
    rw [ha]
    rfl
  rw [readResponse, hissues, hevidence]

/-- **The response of a read is short** next to that of a search under the same registration. -/
theorem bytes_read_le (hplatform : Platform site) {a a' : Workspace.Answer} {s : WorkerSuccess}
    (ha : a' = { a with result := a'.result }) (hsnapshot : Client.isDigest s.policySnapshotHash = true)
    (hid : isId request.requestId = true) (hfetch : Fetch success) (operation : ReadOperation) (hit : Worker.Hit) :
    (readResponse (site.world visit) request a' (.ofSuccess success) operation (.ofHit hit)).bytes site.dates
      ≤ 361 + Json.size (scope a s).json + hit.size := by
  have hscope : Json.size (scope a' (.ofSuccess success)).json ≤ Json.size (scope a s).json + 5 :=
    size_scope_le ha ((escapedBytes_digest hfetch.snapshot).trans (escapedBytes_digest hsnapshot).symm)
      hfetch.searched hfetch.failed
  have hshort : Json.escapedBytes request.requestId ≤ 128 := by
    rw [escapedBytes_id hid]
    rw [isId, Bool.and_eq_true, Bool.and_eq_true, Bool.and_eq_true] at hid
    exact of_decide_eq_true hid.1.1.2
  have hresult := size_read_le site.dates operation (evidence site.host.sha256 a (.ofHit hit)) (visit.date 1)
  have hsized := size_evidence hplatform.sha256 a hit
  have hdate := (hplatform.iso (visit.date 1)).2
  have hsize : hit.size = Json.size hit.json + 1 := rfl
  have hresponse : readResponse (site.world visit) request a' (.ofSuccess success) operation (.ofHit hit)
      = .ok request.requestId (scope a' (.ofSuccess success)) []
        (.read operation (evidence site.host.sha256 a (.ofHit hit)) (visit.date 1)) :=
    readResponse_eq (site.world visit) request ha hfetch operation hit
  rw [hresponse, bytes_ok]
  omega

/-- The path of a hit is within its size. -/
theorem escapedBytes_path_le (hit : Worker.Hit) : Json.escapedBytes (encode hit.path) + 7 ≤ hit.size := by
  have hjson : hit.json = Client.objectOf [("path", some (.str (encode hit.path))),
      ("fileSha256", some (.str (encode hit.fileSha256))), ("range", some (Client.rangeJson hit.range)),
      ("excerpt", some (excerptJson (.ofExcerpt hit.excerpt)))] := rfl
  rw [Worker.Hit.size, hjson]
  simp only [size_objectOf, List.foldr_cons, List.foldr_nil, memberBytes, optionBytes_some, size_str]
  omega

end Read

end JevGrep.Service
