/-
# `JevGrep.Service.Asking` — a read is asked for in the words of a search.

A read goes through the registry and the client as a search with a fixed pattern and a `read`. Once a search of
a workspace has passed the checks of both, a read under the same ids and the same narrowing passes them too, and
what is left of it in the end is what the worker needs (`searchSchema_read`, `acceptInput_read`). §1 the read that
a request asks for; §2 what the registry reads; §3 what the client reads; §4 a read as a caller writes it.
-/
import JevGrep.Service.Delivery

namespace JevGrep.Service

open JevGrep.Lib JevGrep.Lib.Schema
open JevGrep.Lib.Utf16 (byteLength isWellFormed)
open JevGrep.Contracts (JsString pathSchema)
open JevGrep.Worker (FRAME_CAP QueryKind Range)
open JevGrep.Client (WorkerRead WorkerRequest acceptInput digestSchema isDigest kindJson objectOf optional_eq_some
  pathString queryKinds rangeJson rangeSchema requestId required_eq_some required_int strings workerReadSchema
  workerRequestSchema)
open JevGrep.Workspace (Host Narrow Patterns Policy Registry SearchRequest narrowSchema withDefault)

/-! ## §1 — the read that a request asks for. -/

/-- What the schemas ask of a read. -/
structure Askable (q : WorkerRead) : Prop where
  path : pathSchema q.path = true
  range : q.range.start ≤ MAX_SAFE_INTEGER ∧ q.range.stop ≤ MAX_SAFE_INTEGER
  digest : ∀ d, q.expectedFileSha256 = some d → isDigest d = true

theorem rangeSchema_rangeJson {range : Range}
    (h : range.start ≤ MAX_SAFE_INTEGER ∧ range.stop ≤ MAX_SAFE_INTEGER) : rangeSchema (rangeJson range) = some range :=
  Client.rangeSchema_json h.1 h.2

theorem pathString_str {path : JsString} (h : pathSchema path = true) : pathString (.str path) = some path := by
  rw [pathString, string, Option.filter_some, if_pos h]

theorem digestSchema_str {digest : JsString} (h : isDigest digest = true) :
    digestSchema (.str digest) = some digest := by
  rw [digestSchema, string, Option.filter_some, if_pos h]

/-- An absent member. -/
theorem optional_named_none {α : Type} {fields : List (String × Json)} {name : String} {read : Json → Option α}
    (h : name ∉ fields.map (·.1)) : optional (named fields) name read = some none := by
  have hlookup : lookup (named fields) name = none := by
    rw [lookup, Option.map_eq_none_iff, List.find?_eq_none]
    intro m hm hname
    obtain ⟨f, hf, rfl⟩ := List.mem_map.1 (List.mem_reverse.1 hm)
    exact h (List.mem_map.2 ⟨f, hf, units_injective (beq_iff_eq.1 hname)⟩)
  rw [Schema.optional, hlookup]

theorem optional_named {α : Type} {fields : List (String × Json)} {name : String} {v : Json}
    {read : Json → Option α} {a : α} (hnodup : (fields.map (·.1)).Nodup) (h : (name, v) ∈ fields)
    (hread : read v = some a) : optional (named fields) name read = some (some a) := by
  rw [Schema.optional, lookup_named hnodup h]
  exact congrArg (Option.map some) hread

/-- **A read is written so that it is read.** -/
theorem workerReadSchema_json {q : WorkerRead} (h : Askable q) : workerReadSchema q.json = some q := by
  obtain ⟨path, range, digest⟩ := q
  cases digest with
  | none =>
    have hjson : WorkerRead.json ⟨path, range, none⟩
        = .obj (named [("path", .str path), ("range", rangeJson range)]) := rfl
    rw [hjson]
    refine some_bind (strictObject_named (by simp)) ?_
    refine some_bind (required_named (by simp) (by simp) (pathString_str h.path)) ?_
    refine some_bind (required_named (by simp) (by simp) (rangeSchema_rangeJson h.range)) ?_
    exact some_bind (optional_named_none (by simp)) rfl
  | some digest =>
    have hjson : WorkerRead.json ⟨path, range, some digest⟩ = .obj (named [("path", .str path),
        ("range", rangeJson range), ("expectedFileSha256", .str digest)]) := rfl
    rw [hjson]
    refine some_bind (strictObject_named (by simp)) ?_
    refine some_bind (required_named (by simp) (by simp) (pathString_str h.path)) ?_
    refine some_bind (required_named (by simp) (by simp) (rangeSchema_rangeJson h.range)) ?_
    exact some_bind (optional_named (by simp) (by simp) (digestSchema_str (h.digest digest rfl))) rfl

/-- What is known of a request for a read. -/
structure Readable (q : WorkerRead) (byteBudget : Nat) : Prop where
  askable : Askable q
  path : isWellFormed q.path = true
  ordered : q.range.start ≤ q.range.stop
  budget : q.range.stop - q.range.start ≤ byteBudget

theorem readFields_some {members : List (List UInt16 × Json)} {operation : ReadOperation} {request : Request}
    (h : readFields members operation = some request) : ∃ path range byteBudget,
      request.operation = .read operation path range byteBudget ∧ pathSchema path = true ∧
        range.start ≤ MAX_SAFE_INTEGER ∧ range.stop ≤ MAX_SAFE_INTEGER := by
  obtain ⟨path, hpath, h⟩ := bind_some h
  obtain ⟨range, hrange, h⟩ := bind_some h
  obtain ⟨byteBudget, -, h⟩ := bind_some h
  obtain ⟨v, hv⟩ := required_eq_some hpath
  obtain ⟨w, hw⟩ := required_eq_some hrange
  exact ⟨path, range, byteBudget, (envelope_ids h).2.2.2.2, (Option.filter_eq_some_iff.mp hv).2,
    Client.rangeSchema_eq_some hw⟩

/-- What `parseRequest` has made sure of. -/
theorem readable_of_parsed {input : Json} {request : Request} {operation : ReadOperation} {path : JsString}
    {range : Range} {byteBudget : Nat} (h : parseRequest input = some request)
    (hoperation : request.operation = .read operation path range byteBudget) :
    Readable ⟨path, range, operation.expected⟩ byteBudget := by
  obtain ⟨hschema, hinvariants⟩ := Option.filter_eq_some_iff.mp h
  have hread : ∃ members, readFields members operation = some request ∧
      ∀ d, operation.expected = some d → isDigest d = true := by
    rcases orElse_some hschema with h | h
    · obtain ⟨members, -, h⟩ := bind_some h
      obtain ⟨_, -, h⟩ := bind_some h
      obtain ⟨query, -, h⟩ := bind_some h
      obtain ⟨maxMatches, -, h⟩ := bind_some h
      rw [(envelope_ids h).2.2.2.2] at hoperation
      cases hoperation
    rcases orElse_some h with h | h
    · obtain ⟨members, -, h⟩ := bind_some h
      obtain ⟨_, -, h⟩ := bind_some h
      obtain ⟨question, -, h⟩ := bind_some h
      obtain ⟨anchors, -, h⟩ := bind_some h
      obtain ⟨_, -, h⟩ := bind_some h
      obtain ⟨_, -, h⟩ := bind_some h
      rw [(envelope_ids h).2.2.2.2] at hoperation
      cases hoperation
    rcases orElse_some h with h | h
    · obtain ⟨members, -, h⟩ := bind_some h
      obtain ⟨_, -, h⟩ := bind_some h
      obtain ⟨digest, hdigest, h⟩ := bind_some h
      obtain ⟨path', range', byteBudget', hsame, -⟩ := readFields_some h
      obtain ⟨rfl, -⟩ := Operation.read.inj (hoperation.symm.trans hsame)
      obtain ⟨v, hv⟩ := required_eq_some hdigest
      refine ⟨members, h, fun d hd => ?_⟩
      obtain rfl := Option.some.inj hd
      exact (Option.filter_eq_some_iff.mp hv).2
    · obtain ⟨members, -, h⟩ := bind_some h
      obtain ⟨_, -, h⟩ := bind_some h
      obtain ⟨path', range', byteBudget', hsame, -⟩ := readFields_some h
      obtain ⟨rfl, -⟩ := Operation.read.inj (hoperation.symm.trans hsame)
      exact ⟨members, h, fun d hd => by cases hd⟩
  obtain ⟨members, hfields, hdigest⟩ := hread
  obtain ⟨path', range', byteBudget', hsame, hpath, hstart, hstop⟩ := readFields_some hfields
  obtain ⟨-, rfl, rfl, rfl⟩ := Operation.read.inj (hoperation.symm.trans hsame)
  rw [requestInvariants, hoperation] at hinvariants
  simp only [Bool.and_eq_true, byteText, decide_eq_true_eq] at hinvariants
  obtain ⟨-, ⟨⟨hwell, -⟩, hordered⟩, hbudget⟩ := hinvariants
  exact ⟨⟨hpath, ⟨hstart, hstop⟩, hdigest⟩, hwell, hordered, hbudget⟩

/-! ## §2 — what the registry reads. -/

/-- A read as the registry has it. -/
def readOf (request : Request) (q : WorkerRead) (remaining responseBytes : Nat) (narrow : Option Narrow) :
    SearchRequest where
  workspaceId := request.workspaceId
  scopePolicyId := request.scopePolicyId
  pattern := units "scoped-read"
  kind := .literal
  caseSensitive := true
  maxMatches := 100
  deadlineMs := remaining
  read := some q
  responseBytes := responseBytes
  narrow := narrow

/-- What `searchInput` writes whatever is asked for. -/
structure Common (request : Request) (remaining responseBytes : Nat) (members : List (List UInt16 × Json)) : Prop where
  workspaceId : lookup members "workspaceId" = some (.str request.workspaceId)
  scopePolicyId : lookup members "scopePolicyId" = some (.str request.scopePolicyId)
  narrow : lookup members "narrow" = request.narrow.map fun n =>
    objectOf [("include", some (strings n.includes)), ("exclude", some (strings n.exclude))]
  deadlineMs : lookup members "deadlineMs" = some (.nat remaining)
  responseBytes : lookup members "responseBytes" = some (.nat responseBytes)

theorem common_searchInput (request : Request) (remaining responseBytes : Nat) :
    Common request remaining responseBytes (membersOf (searchInput request remaining responseBytes)) := by
  unfold searchInput
  cases request.operation <;> cases hnarrow : request.narrow <;> constructor <;>
    simp [membersOf, objectOf, lookup_cons, lookup_nil, units_injective.eq_iff, hnarrow]

/-- What `searchInput` writes of a read. -/
structure Fetching (q : WorkerRead) (v : Json) (members : List (List UInt16 × Json)) : Prop where
  strict : strictObject ["workspaceId", "scopePolicyId", "pattern", "kind", "caseSensitive", "maxMatches",
    "deadlineMs", "read", "responseBytes", "narrow"] v = some members
  pattern : lookup members "pattern" = some (.str (units "scoped-read"))
  kind : lookup members "kind" = none
  caseSensitive : lookup members "caseSensitive" = none
  maxMatches : lookup members "maxMatches" = none
  read : lookup members "read" = some q.json

theorem fetching_searchInput {request : Request} {operation : ReadOperation} {path : JsString} {range : Range}
    {byteBudget : Nat} (hoperation : request.operation = .read operation path range byteBudget)
    (remaining responseBytes : Nat) : Fetching ⟨path, range, operation.expected⟩
      (searchInput request remaining responseBytes)
      (membersOf (searchInput request remaining responseBytes)) := by
  unfold searchInput
  rw [hoperation]
  cases operation <;> cases request.narrow <;> constructor <;>
    simp [membersOf, objectOf, strictObject, lookup_cons, lookup_nil, units_injective.eq_iff, WorkerRead.json,
      ReadOperation.expected]

theorem optional_congr {α : Type} {members members' : List (List UInt16 × Json)} {name : String}
    (h : lookup members name = lookup members' name) (read : Json → Option α) :
    optional members name read = optional members' name read := by
  rw [Schema.optional, Schema.optional, h]

theorem withDefault_absent {α : Type} {members : List (List UInt16 × Json)} {name : String}
    (h : lookup members name = none) (default : α) (read : Json → Option α) :
    withDefault members name default read = some default := by
  rw [withDefault, Schema.optional, h]
  rfl

theorem withDefault_present {α : Type} {members : List (List UInt16 × Json)} {name : String} {v : Json}
    (h : lookup members name = some v) (default : α) {read : Json → Option α} {a : α} (hread : read v = some a) :
    withDefault members name default read = some a := by
  rw [withDefault, Schema.optional, h]
  simp only [hread]
  rfl

theorem required_present {α : Type} {members : List (List UInt16 × Json)} {name : String} {v : Json}
    (h : lookup members name = some v) {read : Json → Option α} {a : α} (hread : read v = some a) :
    required members name read = some a := by
  rw [required, h]
  exact hread

theorem optional_present {α : Type} {members : List (List UInt16 × Json)} {name : String} {v : Json}
    (h : lookup members name = some v) {read : Json → Option α} {a : α} (hread : read v = some a) :
    optional members name read = some (some a) := by
  rw [Schema.optional, h]
  exact congrArg (Option.map some) hread

theorem int_some {least most n : Nat} (h : least ≤ n ∧ n ≤ most) (hsafe : most ≤ MAX_SAFE_INTEGER) :
    int least most (.nat n) = some n :=
  Client.int_nat ⟨h.1, h.2, h.2.trans hsafe⟩

/-- A list of strings is read as it was written. -/
theorem array_written {item : Json → Option JsString} (hitem : ∀ s t, item (.str s) = some t → t = s) {most : Nat}
    {items items' : List JsString} (h : array item most (strings items) = some items') : items' = items := by
  have hmap : ∀ items items' : List JsString, (items.map Json.str).mapM item = some items' → items' = items := by
    intro items
    induction items with
    | nil =>
      intro items' h
      exact (Option.some.inj (h : some [] = some items')).symm
    | cons s items ih =>
      intro items' h
      rw [List.map_cons, List.mapM_cons] at h
      obtain ⟨t, ht, h⟩ := bind_some h
      obtain ⟨rest, hrest, h⟩ := bind_some h
      obtain rfl := Option.some.inj (h : some (t :: rest) = some items')
      rw [hitem s t ht, ih rest hrest]
  rw [strings, array] at h
  split at h
  · exact hmap items items' h
  · cases h

theorem narrowSchema_written {n n' : Narrow} (h : narrowSchema (objectOf [("include", some (strings n.includes)),
    ("exclude", some (strings n.exclude))]) = some n') : n' = n := by
  have hpattern : ∀ s t, (string (.str s)).filter Workspace.isPattern = some t → t = s := fun s t => string_written
  have hjson : objectOf [("include", some (strings n.includes)), ("exclude", some (strings n.exclude))]
      = .obj (named [("include", strings n.includes), ("exclude", strings n.exclude)]) := rfl
  rw [hjson] at h
  obtain ⟨members, hmembers, h⟩ := bind_some h
  obtain ⟨includes, hincludes, h⟩ := bind_some h
  obtain ⟨exclude, hexclude, h⟩ := bind_some h
  obtain rfl := Option.some.inj h
  obtain rfl := membersOf_strict hmembers
  have hfirst : lookup (named [("include", strings n.includes), ("exclude", strings n.exclude)]) "include"
      = some (strings n.includes) := lookup_named (by simp) (by simp)
  have hsecond : lookup (named [("include", strings n.includes), ("exclude", strings n.exclude)]) "exclude"
      = some (strings n.exclude) := lookup_named (by simp) (by simp)
  rw [array_written hpattern (required_of_lookup hfirst hincludes),
    array_written hpattern (required_of_lookup hsecond hexclude)]

/-- What the registry has of the context and the narrowing of a request. -/
structure SearchedAs (request : Request) (remaining responseBytes : Nat) (r : SearchRequest) : Prop where
  deadlineMs : r.deadlineMs = remaining
  responseBytes : r.responseBytes = responseBytes
  narrow : r.narrow = request.narrow

theorem withDefault_written {members : List (List UInt16 × Json)} {name : String} {default least most n m : Nat}
    (hlookup : lookup members name = some (.nat n))
    (h : withDefault members name default (int least most) = some m) : m = n := by
  obtain ⟨found, hfound, rfl⟩ := Option.map_eq_some_iff.mp h
  rcases optional_of_lookup hfound with ⟨hnone, -⟩ | ⟨v, b, hv, hb, rfl⟩
  · rw [hlookup] at hnone
    cases hnone
  · rw [hlookup] at hv
    obtain rfl := Option.some.inj hv
    exact int_written hb

theorem searchedAs_of_searchInput {host : Host} {request : Request} {remaining responseBytes : Nat}
    {r : SearchRequest}
    (h : Registry.searchSchema host (searchInput request remaining responseBytes) = some r) :
    SearchedAs request remaining responseBytes r := by
  have hcommon := common_searchInput request remaining responseBytes
  obtain ⟨members, hmembers, h⟩ := bind_some h
  obtain rfl := membersOf_strict hmembers
  obtain ⟨workspaceId, -, h⟩ := bind_some h
  obtain ⟨scopePolicyId, -, h⟩ := bind_some h
  obtain ⟨pattern, -, h⟩ := bind_some h
  obtain ⟨kind, -, h⟩ := bind_some h
  obtain ⟨caseSensitive, -, h⟩ := bind_some h
  obtain ⟨maxMatches, -, h⟩ := bind_some h
  obtain ⟨deadlineMs, hdeadline, h⟩ := bind_some h
  obtain ⟨read, -, h⟩ := bind_some h
  obtain ⟨bytes, hbytes, h⟩ := bind_some h
  obtain ⟨narrow, hnarrow, h⟩ := bind_some h
  obtain rfl := Option.some.inj h
  refine ⟨withDefault_written hcommon.deadlineMs hdeadline, withDefault_written hcommon.responseBytes hbytes, ?_⟩
  have hlookup := hcommon.narrow
  rcases optional_of_lookup hnarrow with ⟨hnone, rfl⟩ | ⟨v, n, hv, hn, rfl⟩
  · rw [hlookup, Option.map_eq_none_iff] at hnone
    exact hnone.symm
  · rw [hlookup, Option.map_eq_some_iff] at hv
    obtain ⟨asked, hasked, rfl⟩ := hv
    rw [hasked]
    exact congrArg some (narrowSchema_written hn)

/-- **The registry reads a read** for the workspace and with the narrowing of a search that it has read. -/
theorem searchSchema_read {host : Host} {exact request : Request} {remaining₀ responseBytes₀ : Nat}
    {r : SearchRequest} {operation : ReadOperation} {path : JsString} {range : Range} {byteBudget : Nat}
    {remaining responseBytes : Nat}
    (h : Registry.searchSchema host (searchInput exact remaining₀ responseBytes₀) = some r)
    (hworkspace : request.workspaceId = exact.workspaceId) (hpolicy : request.scopePolicyId = exact.scopePolicyId)
    (hnarrow : request.narrow = exact.narrow)
    (hoperation : request.operation = .read operation path range byteBudget)
    (hask : Askable ⟨path, range, operation.expected⟩) (hremaining : 1 ≤ remaining ∧ remaining ≤ 30000)
    (hbytes : 2048 ≤ responseBytes ∧ responseBytes ≤ 1048576) :
    Registry.searchSchema host (searchInput request remaining responseBytes)
      = some (readOf request ⟨path, range, operation.expected⟩ remaining responseBytes r.narrow) := by
  have hcommon₀ := common_searchInput exact remaining₀ responseBytes₀
  have hcommon := common_searchInput request remaining responseBytes
  have hfetching := fetching_searchInput hoperation remaining responseBytes
  -- of the members only what is found under their names matters
  generalize membersOf (searchInput request remaining responseBytes) = o at hcommon hfetching
  obtain ⟨members, hmembers, h⟩ := bind_some h
  obtain rfl := membersOf_strict hmembers
  obtain ⟨workspaceId, hid, h⟩ := bind_some h
  obtain ⟨scopePolicyId, hid', h⟩ := bind_some h
  obtain ⟨pattern, -, h⟩ := bind_some h
  obtain ⟨kind, -, h⟩ := bind_some h
  obtain ⟨caseSensitive, -, h⟩ := bind_some h
  obtain ⟨maxMatches, -, h⟩ := bind_some h
  obtain ⟨deadlineMs, -, h⟩ := bind_some h
  obtain ⟨read, -, h⟩ := bind_some h
  obtain ⟨bytes, -, h⟩ := bind_some h
  obtain ⟨narrow, hread, h⟩ := bind_some h
  obtain rfl := Option.some.inj h
  -- the ids are those of the search, and were found to be UUIDs there
  have hfirst : (string (.str request.workspaceId)).filter host.isUuid = some request.workspaceId := by
    have hsame := required_of_lookup hcommon₀.workspaceId hid
    obtain rfl := string_written hsame
    rw [hworkspace]
    exact hsame
  have hsecond : (string (.str request.scopePolicyId)).filter host.isUuid = some request.scopePolicyId := by
    have hsame := required_of_lookup hcommon₀.scopePolicyId hid'
    obtain rfl := string_written hsame
    rw [hpolicy]
    exact hsame
  have hnarrowed : optional o "narrow" narrowSchema = some narrow := by
    rw [← hread]
    apply optional_congr
    rw [hcommon.narrow, hcommon₀.narrow, hnarrow]
  refine some_bind hfetching.strict ?_
  refine some_bind (required_present hcommon.workspaceId hfirst) ?_
  refine some_bind (required_present hcommon.scopePolicyId hsecond) ?_
  refine some_bind (required_present hfetching.pattern rfl) ?_
  refine some_bind (withDefault_absent hfetching.kind _ _) ?_
  refine some_bind (withDefault_absent hfetching.caseSensitive _ _) ?_
  refine some_bind (withDefault_absent hfetching.maxMatches _ _) ?_
  refine some_bind (withDefault_present hcommon.deadlineMs _ (int_some hremaining (by decide))) ?_
  refine some_bind (optional_present hfetching.read (workerReadSchema_json hask)) ?_
  refine some_bind (withDefault_present hcommon.responseBytes _ (int_some hbytes (by decide))) ?_
  exact some_bind hnarrowed rfl

/-! ## §3 — what the client reads. -/

/-- A search of the registry as the client has it. -/
def sentOf (k : Nat) (policy : Policy) (r : SearchRequest) : WorkerRequest where
  id := requestId k
  pattern := r.pattern
  kind := r.kind
  caseSensitive := r.caseSensitive
  maxMatches := r.maxMatches
  maxFileBytes := policy.maxFileBytes
  responseBytes := r.responseBytes
  deadlineMs := r.deadlineMs
  scope := some (Registry.searchScope policy r)
  validateScopeOnly := none
  read := r.read
  maxEntries := 100000
  maxDepth := 64

/-- What the registry hands to its worker, over the defaults of the client. -/
structure Handed (policy : Policy) (r : SearchRequest) (v : Json) (members : List (List UInt16 × Json)) : Prop where
  strict : strictObject ["pattern", "kind", "caseSensitive", "maxMatches", "maxFileBytes", "responseBytes",
    "deadlineMs", "scope", "validateScopeOnly", "read", "maxEntries", "maxDepth"] v = some members
  pattern : lookup members "pattern" = some (.str r.pattern)
  kind : lookup members "kind" = some (kindJson r.kind)
  caseSensitive : lookup members "caseSensitive" = some (.bool r.caseSensitive)
  maxMatches : lookup members "maxMatches" = some (.nat r.maxMatches)
  maxFileBytes : lookup members "maxFileBytes" = some (.nat policy.maxFileBytes)
  responseBytes : lookup members "responseBytes" = some (.nat r.responseBytes)
  deadlineMs : lookup members "deadlineMs" = some (.nat r.deadlineMs)
  scope : lookup members "scope" = some (Registry.searchScope policy r).json
  validateScopeOnly : lookup members "validateScopeOnly" = none
  read : lookup members "read" = r.read.map WorkerRead.json
  maxEntries : lookup members "maxEntries" = some (.nat 100000)
  maxDepth : lookup members "maxDepth" = some (.nat 64)

theorem handed_searchInput (policy : Policy) (r : SearchRequest) :
    Handed policy r (.obj (Client.searchDefaults ++ Registry.searchInput policy r))
      (Client.searchDefaults ++ Registry.searchInput policy r) := by
  cases hr : r.read <;> constructor <;>
    simp [Client.searchDefaults, Registry.searchInput, strictObject, lookup_cons, lookup_nil,
      units_injective.eq_iff, hr]

theorem choice_kind (kind : QueryKind) : choice queryKinds (kindJson kind) = some kind := by
  cases kind <;> decide +kernel

/-- The scope of a registered policy is read as it is. -/
theorem workerScopeSchema_searchScope {policyInput : Json} {policy : Policy} {r : SearchRequest}
    (hpolicy : Workspace.createPolicy policyInput = some policy)
    (hnarrow : ∀ narrow, r.narrow = some narrow → ∃ v, narrowSchema v = some narrow) :
    Client.workerScopeSchema (Registry.searchScope policy r).json = some (Registry.searchScope policy r) := by
  obtain ⟨hgroups, hexclude⟩ := patterns_of_searchScope hpolicy hnarrow
  exact Workspace.workerScopeSchema_json (Nat.le_refl 2) hgroups hexclude

/-- **The client has a search as the registry had it.** -/
theorem accepted_eq {k : Nat} {policyInput : Json} {policy : Policy} {r : SearchRequest} {sent : WorkerRequest}
    (hpolicy : Workspace.createPolicy policyInput = some policy)
    (hnarrow : ∀ narrow, r.narrow = some narrow → ∃ v, narrowSchema v = some narrow)
    (h : acceptInput (requestId k) (Registry.searchInput policy r) = some sent) : sent = sentOf k policy r := by
  have hhanded := handed_searchInput policy r
  obtain ⟨hschema, -⟩ := Option.filter_eq_some_iff.mp h
  obtain ⟨members, hmembers, h⟩ := bind_some hschema
  obtain rfl := Option.some.inj (hmembers.symm.trans hhanded.strict)
  -- from here on only what is found under each name matters
  generalize Client.searchDefaults ++ Registry.searchInput policy r = o at hhanded h
  obtain ⟨pattern, hpattern, h⟩ := bind_some h
  obtain ⟨kind, hkind, h⟩ := bind_some h
  obtain ⟨caseSensitive, hcase, h⟩ := bind_some h
  obtain ⟨maxMatches, hmatches, h⟩ := bind_some h
  obtain ⟨maxFileBytes, hfile, h⟩ := bind_some h
  obtain ⟨responseBytes, hbytes, h⟩ := bind_some h
  obtain ⟨deadlineMs, hdeadline, h⟩ := bind_some h
  obtain ⟨scope, hscope, h⟩ := bind_some h
  obtain ⟨validate, hvalidate, h⟩ := bind_some h
  obtain ⟨read, hread, h⟩ := bind_some h
  obtain ⟨maxEntries, hentries, h⟩ := bind_some h
  obtain ⟨maxDepth, hdepth, h⟩ := bind_some h
  obtain rfl := Option.some.inj h
  obtain rfl := string_written (required_of_lookup hhanded.pattern hpattern)
  obtain rfl := Option.some.inj ((choice_kind r.kind).symm.trans (required_of_lookup hhanded.kind hkind))
  have hflag : some r.caseSensitive = some caseSensitive := required_of_lookup hhanded.caseSensitive hcase
  obtain rfl := Option.some.inj hflag
  obtain rfl := int_written (required_of_lookup hhanded.maxMatches hmatches)
  obtain rfl := int_written (required_of_lookup hhanded.maxFileBytes hfile)
  obtain rfl := int_written (required_of_lookup hhanded.responseBytes hbytes)
  obtain rfl := int_written (required_of_lookup hhanded.deadlineMs hdeadline)
  obtain rfl := int_written (required_of_lookup hhanded.maxEntries hentries)
  obtain rfl := int_written (required_of_lookup hhanded.maxDepth hdepth)
  have hscope' := optional_present hhanded.scope (workerScopeSchema_searchScope hpolicy hnarrow)
  obtain rfl := Option.some.inj (hscope.symm.trans hscope')
  have hnone : validate = none := by
    rw [Schema.optional, hhanded.validateScopeOnly] at hvalidate
    exact (Option.some.inj hvalidate).symm
  have hsame : read = r.read := by
    rcases optional_of_lookup hread with ⟨habsent, rfl⟩ | ⟨v, q, hv, hq, rfl⟩
    · rw [hhanded.read, Option.map_eq_none_iff] at habsent
      exact habsent.symm
    · rw [hhanded.read, Option.map_eq_some_iff] at hv
      obtain ⟨asked, hasked, rfl⟩ := hv
      rw [hasked, ← workerReadSchema_written hq]
  rw [hnone, hsame]
  rfl

/-- **The client accepts a read** that the registry has read. -/
theorem acceptInput_read {k : Nat} {policyInput : Json} {policy : Policy} {request : Request} {q : WorkerRead}
    {remaining responseBytes : Nat} {narrow : Option Narrow}
    (hpolicy : Workspace.createPolicy policyInput = some policy)
    (hnarrow : ∀ n, narrow = some n → ∃ v, narrowSchema v = some n) (hask : Askable q)
    (hremaining : 1 ≤ remaining ∧ remaining ≤ 30000) (hbytes : 2048 ≤ responseBytes ∧ responseBytes ≤ 1048576) :
    acceptInput (requestId k) (Registry.searchInput policy (readOf request q remaining responseBytes narrow))
      = some (sentOf k policy (readOf request q remaining responseBytes narrow)) := by
  set r := readOf request q remaining responseBytes narrow with hr
  have hhanded := handed_searchInput policy r
  have hfile := maxFileBytes_of_createPolicy hpolicy
  have hmost : 1 ≤ 100 ∧ 100 ≤ 1000 := by decide
  have hpattern : Schema.boundedString 1 8192 (.str (units "scoped-read")) = some (units "scoped-read") := by
    decide +kernel
  have hchecks : (isWellFormed (units "scoped-read") && decide (byteLength (units "scoped-read") ≤ 8192)
      && !(units "scoped-read").any fun u => u.toNat == 0x0d || u.toNat == 0x0a || u.toNat == 0) = true := by
    decide +kernel
  have hread : optional (Client.searchDefaults ++ Registry.searchInput policy r) "read" workerReadSchema
      = some (some q) := optional_present hhanded.read (workerReadSchema_json hask)
  have hschema : workerRequestSchema (requestId k) (.obj (Client.searchDefaults ++ Registry.searchInput policy r))
      = some (sentOf k policy r) := by
    generalize hmembers : Client.searchDefaults ++ Registry.searchInput policy r = o at hhanded hread
    refine some_bind hhanded.strict ?_
    refine some_bind (required_present hhanded.pattern hpattern) ?_
    refine some_bind (required_present hhanded.kind (choice_kind _)) ?_
    refine some_bind (required_present hhanded.caseSensitive rfl) ?_
    refine some_bind (required_present hhanded.maxMatches (int_some hmost (by decide))) ?_
    refine some_bind (required_present hhanded.maxFileBytes (int_some hfile (by decide))) ?_
    refine some_bind (required_present hhanded.responseBytes (int_some hbytes (by decide))) ?_
    refine some_bind (required_present hhanded.deadlineMs (int_some hremaining (by decide))) ?_
    refine some_bind (optional_present hhanded.scope (workerScopeSchema_searchScope hpolicy hnarrow)) ?_
    refine some_bind (a := none) ?_ ?_
    · rw [Schema.optional, hhanded.validateScopeOnly]
    refine some_bind hread ?_
    refine some_bind (required_present hhanded.maxEntries (int_some (by decide) (by decide))) ?_
    exact some_bind (required_present hhanded.maxDepth (int_some (by decide) (by decide))) rfl
  rw [acceptInput, hschema, Option.filter_some]
  exact if_pos hchecks

/-! ## §4 — a read as a caller writes it. -/

/-- A request for a read under the ids and the narrowing of another request. -/
def Request.again (request : Request) (id : JsString) (operation : ReadOperation) (path : JsString) (range : Range)
    (byteBudget : Nat) : Request :=
  { request with requestId := id, operation := .read operation path range byteBudget }

/-- The same as a caller writes it. -/
def againInput (request : Request) (id : JsString) (operation : ReadOperation) (path : JsString) (range : Range)
    (byteBudget : Nat) : Json :=
  objectOf [("version", some (.nat 1)), ("requestId", some (.str id)),
    ("workspaceId", some (.str request.workspaceId)), ("scopePolicyId", some (.str request.scopePolicyId)),
    ("narrow", request.narrow.map fun n =>
      objectOf [("include", some (strings n.includes)), ("exclude", some (strings n.exclude))]),
    ("operation", some operation.json), ("path", some (.str path)), ("range", some (rangeJson range)),
    ("byteBudget", some (.nat byteBudget)), ("expectedFileSha256", operation.expected.map .str)]

/-- What it consists of. -/
structure Composed (request : Request) (id : JsString) (operation : ReadOperation) (path : JsString) (range : Range)
    (byteBudget : Nat) (members : List (List UInt16 × Json)) : Prop where
  version : lookup members "version" = some (.nat 1)
  requestId : lookup members "requestId" = some (.str id)
  workspaceId : lookup members "workspaceId" = some (.str request.workspaceId)
  scopePolicyId : lookup members "scopePolicyId" = some (.str request.scopePolicyId)
  narrow : lookup members "narrow" = request.narrow.map fun n =>
    objectOf [("include", some (strings n.includes)), ("exclude", some (strings n.exclude))]
  named : lookup members "operation" = some operation.json
  path : lookup members "path" = some (.str path)
  range : lookup members "range" = some (rangeJson range)
  byteBudget : lookup members "byteBudget" = some (.nat byteBudget)
  digest : lookup members "expectedFileSha256" = operation.expected.map .str

theorem composed_againInput (request : Request) (id : JsString) (operation : ReadOperation) (path : JsString)
    (range : Range) (byteBudget : Nat) : Composed request id operation path range byteBudget
      (membersOf (againInput request id operation path range byteBudget)) := by
  unfold againInput
  cases operation <;> cases hnarrow : request.narrow <;> constructor <;>
    simp [membersOf, objectOf, lookup_cons, lookup_nil, units_injective.eq_iff, hnarrow, ReadOperation.expected]

theorem strict_verified (request : Request) (id : JsString) (operation : ReadOperation) (path : JsString)
    (range : Range) (byteBudget : Nat) :
    strictObject (envelopeNames ++ ["path", "range", "byteBudget", "expectedFileSha256"])
        (againInput request id operation path range byteBudget)
      = some (membersOf (againInput request id operation path range byteBudget)) := by
  unfold againInput
  cases operation <;> cases request.narrow <;>
    simp [membersOf, objectOf, strictObject, envelopeNames, ReadOperation.expected]

theorem strict_fresh (request : Request) (id path : JsString) (range : Range) (byteBudget : Nat) :
    strictObject (envelopeNames ++ ["path", "range", "byteBudget"])
        (againInput request id .fresh path range byteBudget)
      = some (membersOf (againInput request id .fresh path range byteBudget)) := by
  unfold againInput
  cases request.narrow <;> simp [membersOf, objectOf, strictObject, envelopeNames, ReadOperation.expected]

/-- An object with a member of another name is not strict. -/
theorem strictObject_other {names : List String} {v : Json} {name : String} {value : Json}
    (h : lookup (membersOf v) name = some value) (hname : name ∉ names) : strictObject names v = none := by
  cases v with
  | obj members =>
    rw [strictObject, if_neg]
    intro hall
    obtain ⟨m, hfind, rfl⟩ := Option.map_eq_some_iff.1 h
    have hmem : m ∈ members := List.mem_reverse.1 (List.mem_of_find?_eq_some hfind)
    have hm : m.1 = units name := beq_iff_eq.1
      (List.find?_some (p := fun m : List UInt16 × Json => m.1 == units name) hfind)
    obtain ⟨other, hother, heq⟩ := List.any_eq_true.1 (List.all_eq_true.1 hall m hmem)
    rw [beq_iff_eq, hm] at heq
    exact hname (units_injective heq ▸ hother)
  | _ => rfl

/-- A list of patterns that was read is read again. -/
theorem patterns_again {v : Json} {items : List JsString} (h : patterns v = some items) :
    patterns (strings items) = some items := by
  obtain ⟨hlength, heach⟩ := array_some h
  have hread : array (boundedString 1 1024) 64 (.arr (items.map .str)) = some (items.map id) := by
    refine array_map hlength fun p hp => ?_
    obtain ⟨w, hw⟩ := heach p hp
    rw [boundedString, string, Option.filter_some, if_pos (Option.filter_eq_some_iff.1 hw).2]
    rfl
  rwa [List.map_id] at hread

theorem publicNarrow_again {v : Json} {narrow : Narrow} (h : publicNarrow v = some narrow) :
    publicNarrow (objectOf [("include", some (strings narrow.includes)), ("exclude", some (strings narrow.exclude))])
      = some narrow := by
  obtain ⟨members, -, h⟩ := bind_some h
  obtain ⟨includes, hincludes, h⟩ := bind_some h
  obtain ⟨exclude, hexclude, h⟩ := bind_some h
  obtain rfl := Option.some.inj h
  obtain ⟨w, hw⟩ := required_eq_some hincludes
  obtain ⟨w', hw'⟩ := required_eq_some hexclude
  have hjson : objectOf [("include", some (strings includes)), ("exclude", some (strings exclude))]
      = .obj (named [("include", strings includes), ("exclude", strings exclude)]) := rfl
  rw [hjson]
  refine some_bind (strictObject_named (by simp)) ?_
  refine some_bind (required_named (by simp) (by simp) (patterns_again hw)) ?_
  exact some_bind (required_named (by simp) (by simp) (patterns_again hw')) rfl

theorem idSchema_str {id : JsString} (h : isId id = true) : idSchema (.str id) = some id := by
  rw [idSchema, string, Option.filter_some, if_pos h]

section Again

variable {input : Json} {request : Request} {id path : JsString} {operation : ReadOperation} {range : Range}
  {byteBudget : Nat}

/-- The ids and the narrowing of a request are read again. -/
theorem readFields_again (h : requestSchema input = some request) (hid : isId id = true)
    (hread : Readable ⟨path, range, operation.expected⟩ byteBudget) (hbudget : 1 ≤ byteBudget ∧ byteBudget ≤ 1048576) :
    readFields (membersOf (againInput request id operation path range byteBudget)) operation
      = some (request.again id operation path range byteBudget) := by
  obtain ⟨members, rfl, henvelope⟩ := envelope_of_requestSchema h
  obtain ⟨-, hworkspace, hpolicy, hnarrow, -⟩ := envelope_ids henvelope
  obtain ⟨v, hv⟩ := required_eq_some hworkspace
  obtain ⟨v', hv'⟩ := required_eq_some hpolicy
  have hcomposed := composed_againInput request id operation path range byteBudget
  have hone : int 1 1 (.nat 1) = some 1 := Client.int_one
  refine some_bind (required_present hcomposed.path (pathString_str hread.askable.path)) ?_
  refine some_bind (required_present hcomposed.range (rangeSchema_rangeJson hread.askable.range)) ?_
  refine some_bind (required_present hcomposed.byteBudget (int_some hbudget (by decide))) ?_
  refine some_bind (required_present hcomposed.version hone) ?_
  refine some_bind (required_present hcomposed.requestId (idSchema_str hid)) ?_
  refine some_bind (required_present hcomposed.workspaceId (idSchema_str (isId_of_idSchema hv))) ?_
  refine some_bind (required_present hcomposed.scopePolicyId (idSchema_str (isId_of_idSchema hv'))) ?_
  refine some_bind (a := request.narrow) ?_ rfl
  cases hn : request.narrow with
  | none =>
    have hnone : lookup (membersOf (againInput request id operation path range byteBudget)) "narrow" = none := by
      rw [hcomposed.narrow, hn]
      rfl
    rw [Schema.optional, hnone]
  | some narrow =>
    rw [hn] at hnarrow
    obtain ⟨w, hw⟩ := optional_eq_some hnarrow
    have hsome := hcomposed.narrow
    rw [hn] at hsome
    exact optional_present hsome (publicNarrow_again hw)

/-- A read is none of the requests that are tried before it. -/
theorem unlike_againInput : exactRequestSchema (againInput request id operation path range byteBudget) = none ∧
    discoveryRequestSchema (againInput request id operation path range byteBudget) = none := by
  have hpath := (composed_againInput request id operation path range byteBudget).path
  unfold exactRequestSchema discoveryRequestSchema
  rw [strictObject_other hpath (by decide), strictObject_other hpath (by decide)]
  exact ⟨rfl, rfl⟩

theorem requestSchema_again (hread : Readable ⟨path, range, operation.expected⟩ byteBudget)
    (hfields : readFields (membersOf (againInput request id operation path range byteBudget)) operation
      = some (request.again id operation path range byteBudget)) :
    requestSchema (againInput request id operation path range byteBudget)
      = some (request.again id operation path range byteBudget) := by
  have hcomposed := composed_againInput request id operation path range byteBudget
  rw [requestSchema, unlike_againInput.1, unlike_againInput.2]
  cases operation with
  | verified digest =>
    have hverified : readVerifiedRequestSchema (againInput request id (.verified digest) path range byteBudget)
        = some (request.again id (.verified digest) path range byteBudget) := by
      refine some_bind (strict_verified request id (.verified digest) path range byteBudget) ?_
      refine some_bind (required_present hcomposed.named (Client.choice_units "read-verified")) ?_
      exact some_bind (required_present hcomposed.digest (digestSchema_str (hread.askable.digest digest rfl))) hfields
    rw [hverified]
    rfl
  | fresh =>
    -- the schema of a verified read stops at the name of the operation
    have hverified : readVerifiedRequestSchema (againInput request id .fresh path range byteBudget) = none := by
      unfold readVerifiedRequestSchema
      rw [strict_verified request id .fresh path range byteBudget]
      show (required _ "operation" _).bind _ = none
      rw [required, hcomposed.named]
      rfl
    have hfresh : readFreshRequestSchema (againInput request id .fresh path range byteBudget)
        = some (request.again id .fresh path range byteBudget) := by
      refine some_bind (strict_fresh request id path range byteBudget) ?_
      exact some_bind (required_present hcomposed.named (Client.choice_units "read-fresh")) hfields
    rw [hverified, hfresh]
    rfl

theorem requestInvariants_again (h : requestInvariants request = true)
    (hread : Readable ⟨path, range, operation.expected⟩ byteBudget) (hbytes : byteLength path ≤ 4096) :
    requestInvariants (request.again id operation path range byteBudget) = true := by
  rw [requestInvariants, Bool.and_eq_true] at h ⊢
  refine ⟨h.1, ?_⟩
  show (byteText path 4096 && decide (range.start ≤ range.stop)
    && decide (range.stop - range.start ≤ byteBudget)) = true
  have hwell : isWellFormed path = true := hread.path
  have hordered : range.start ≤ range.stop := hread.ordered
  have hfits : range.stop - range.start ≤ byteBudget := hread.budget
  rw [byteText, hwell, decide_eq_true hbytes, decide_eq_true hordered, decide_eq_true hfits]
  rfl

/-- **A read can be asked for wherever a search could be.** -/
theorem parseRequest_again (h : parseRequest input = some request) (hid : isId id = true)
    (hread : Readable ⟨path, range, operation.expected⟩ byteBudget) (hbytes : byteLength path ≤ 4096)
    (hbudget : 1 ≤ byteBudget ∧ byteBudget ≤ 1048576) :
    parseRequest (againInput request id operation path range byteBudget)
      = some (request.again id operation path range byteBudget) := by
  obtain ⟨hschema, hinvariants⟩ := Option.filter_eq_some_iff.mp h
  have hfields := readFields_again hschema hid hread hbudget
  rw [parseRequest, requestSchema_again hread hfields, Option.filter_some,
    if_pos (requestInvariants_again hinvariants hread hbytes)]

end Again

end JevGrep.Service
