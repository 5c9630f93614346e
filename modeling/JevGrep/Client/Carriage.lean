/-
# `JevGrep.Client.Carriage` — which accepted requests the worker can read.

The client bounds the strings of a scope and of a read in code units and does not ask whether they are
well formed; the worker reads a frame of at most `FRAME_CAP` bytes into UTF-8 strings. Between the two
stand `JSON.stringify`, which writes a control character in six bytes and a lone surrogate as an escape
that no Rust string can hold. `carried_iff` says exactly which accepted requests get through.
-/
import Mathlib.Data.List.Nodup
import JevGrep.Client.NativeWorker
import JevGrep.Worker.Wire

namespace JevGrep.Client

open JevGrep.Lib JevGrep.Lib.Schema JevGrep.Lib.Utf16
open JevGrep.Contracts (JsString)
open JevGrep.Worker (Bytes FRAME_CAP Str Field fromBeBytes receive Received replyId deString
  U64 deUnsigned deVec deOption deKind deRange deReadRequest deScopeInput deRequest structFields fromSlice)

/-! ## §1 — what it means to be carried. -/

/-- The client's form of a scope the worker holds. -/
def WorkerScope.ofInput (t : Worker.ScopeInput) : WorkerScope where
  includeGroups := t.includeGroups.map (·.map encode)
  exclude := t.exclude.map encode
  hidden := t.hidden
  respectIgnore := t.respectIgnore

/-- The client's form of a read the worker holds. -/
def WorkerRead.ofInput (t : Worker.ReadRequest) : WorkerRead where
  path := encode t.path
  range := t.range
  expectedFileSha256 := t.expectedFileSha256.map encode

/-- The worker's request is the client's, with the remaining time for a deadline. -/
structure SameRequest (r : WorkerRequest) (remaining : Nat) (t : Worker.Request) : Prop where
  v : t.v = 1
  id : encode t.id = r.id
  pattern : encode t.pattern = r.pattern
  kind : t.kind = r.kind
  caseSensitive : t.caseSensitive = r.caseSensitive
  maxMatches : t.maxMatches = r.maxMatches
  maxFileBytes : t.maxFileBytes = r.maxFileBytes
  responseBytes : t.responseBytes = r.responseBytes
  deadlineMs : t.deadlineMs = remaining
  maxEntries : t.maxEntries = r.maxEntries
  maxDepth : t.maxDepth = r.maxDepth
  /-- Without a scope the worker has its default, which excludes nothing. -/
  scope : (r.scope = none → t.scope = {}) ∧ ∀ s, r.scope = some s → WorkerScope.ofInput t.scope = s
  validateScopeOnly : t.validateScopeOnly = r.validateScopeOnly.getD false
  read : t.read.map WorkerRead.ofInput = r.read

/-- The body has 1 to `FRAME_CAP` bytes, the worker reads the frame as the same request, and its reply
has the request's id. -/
structure Carried (r : WorkerRequest) (remaining : Nat) : Prop where
  nonempty : 1 ≤ (requestBody r remaining).length
  capped : (requestBody r remaining).length ≤ FRAME_CAP
  received : ∀ rest, ∃ t, receive (requestFrame r remaining ++ rest) = .request t rest ∧
    SameRequest r remaining t ∧
    ∀ result, (∀ s, result = .ok s → s.id = t.id) → encode (replyId t result) = r.id

/-! ## §2 — the condition. -/

/-- The strings of a request that the client takes unseen. -/
def WorkerRequest.uncheckedStrings (r : WorkerRequest) : List JsString :=
  (match r.scope with
    | none => []
    | some s => s.includeGroups.flatten ++ s.exclude)
    ++ match r.read with
      | none => []
      | some read => [read.path]

/-- The bytes of something that may be absent. -/
def optionBytes {α : Type} (bytes : α → Nat) : Option α → Nat
  | none => 0
  | some a => bytes a

/-- The bytes of a number, of a flag, of a kind. -/
def digits (n : Nat) : Nat := (Nat.toDigits 10 n).length

def boolBytes (b : Bool) : Nat := if b then 4 else 5

def kindBytes : Worker.QueryKind → Nat
  | .literal => 9
  | .regex => 7

/-- The bytes of an array of strings: two brackets, or a quote on both sides and a separator each. -/
def stringsBytes : List JsString → Nat
  | [] => 2
  | s :: items => 1 + (s :: items).foldr (fun s n => Json.escapedBytes s + 3 + n) 0

/-- The bytes of an array of groups. -/
def groupsBytes : List (List JsString) → Nat
  | [] => 2
  | g :: groups => 1 + (g :: groups).foldr (fun g n => stringsBytes g + 1 + n) 0

/-- The bytes of a scope, a range and a read, from those of their fields. -/
def scopeBytes (s : WorkerScope) : Nat :=
  56 + groupsBytes s.includeGroups + stringsBytes s.exclude + boolBytes s.hidden
    + boolBytes s.respectIgnore

/-- The bytes of a range. -/
def rangeBytes (r : Worker.Range) : Nat := 17 + digits r.start + digits r.stop

/-- The bytes of a read in a request. -/
def readBytes (r : WorkerRead) : Nat :=
  20 + Json.escapedBytes r.path + rangeBytes r.range
    + optionBytes (fun digest => 24 + Json.escapedBytes digest) r.expectedFileSha256

/-- The bytes of the body of a request, from the sizes of its fields. -/
def requestBytes (r : WorkerRequest) (remaining : Nat) : Nat :=
  140 + Json.escapedBytes r.pattern + kindBytes r.kind
    + boolBytes r.caseSensitive + digits r.maxMatches + digits r.maxFileBytes
    + digits r.responseBytes + digits remaining + digits r.maxEntries + digits r.maxDepth
    + Json.escapedBytes r.id
    + optionBytes (fun s => 9 + scopeBytes s) r.scope
    + optionBytes (fun b => 21 + boolBytes b) r.validateScopeOnly
    + optionBytes (fun read => 8 + readBytes read) r.read

/-! ## §3 — the sizes of what `JSON.stringify` writes. -/

/-- The bytes a member adds to an object. -/
def memberBytes (m : String × Option Json) : Nat :=
  optionBytes (fun v => Json.escapedBytes (units m.1) + 4 + Json.size v) m.2

theorem optionBytes_some {α : Type} (bytes : α → Nat) (a : α) : optionBytes bytes (some a) = bytes a :=
  rfl

theorem optionBytes_map {α β : Type} (bytes : β → Nat) (f : α → β) (a : Option α) :
    optionBytes bytes (a.map f) = optionBytes (fun a => bytes (f a)) a := by
  cases a <;> rfl

theorem sizeMembers_objectOf (ms : List (String × Option Json)) :
    Json.sizeMembers (ms.filterMap fun m => m.2.map (units m.1, ·))
      = 1 + ms.foldr (fun m n => memberBytes m + n) 0 := by
  induction ms with
  | nil => rfl
  | cons m ms ih =>
      obtain ⟨name, value⟩ := m
      cases value with
      | none =>
          rw [List.filterMap_cons, List.foldr_cons]
          show Json.sizeMembers _ = 1 + (0 + _)
          rw [Nat.zero_add]
          exact ih
      | some v =>
          rw [List.filterMap_cons, List.foldr_cons]
          show Json.sizeMembers ((units name, v) :: _)
            = 1 + (Json.escapedBytes (units name) + 4 + Json.size v + _)
          rw [Json.sizeMembers, ih]
          omega

/-- An object with its first member present. -/
theorem size_objectOf (name : String) (v : Json) (ms : List (String × Option Json)) :
    Json.size (objectOf ((name, some v) :: ms))
      = 1 + ((name, some v) :: ms).foldr (fun m n => memberBytes m + n) 0 := by
  rw [objectOf, List.filterMap_cons, List.foldr_cons]
  show Json.size (.obj ((units name, v) :: _))
    = 1 + (Json.escapedBytes (units name) + 4 + Json.size v + _)
  rw [Json.size, sizeMembers_objectOf]
  omega

theorem sizeItems_map {α : Type} (f : α → Json) (items : List α) :
    Json.sizeItems (items.map f) = 1 + items.foldr (fun a n => Json.size (f a) + 1 + n) 0 := by
  induction items with
  | nil => rfl
  | cons a items ih =>
      rw [List.map_cons, Json.sizeItems, ih, List.foldr_cons]
      omega

theorem size_arr_cons {α : Type} (f : α → Json) (a : α) (items : List α) :
    Json.size (.arr ((a :: items).map f))
      = 1 + (a :: items).foldr (fun a n => Json.size (f a) + 1 + n) 0 := by
  rw [List.map_cons, Json.size, sizeItems_map, List.foldr_cons]
  omega

theorem size_strings (items : List JsString) : Json.size (strings items) = stringsBytes items := by
  cases items with
  | nil => rfl
  | cons s items => exact size_arr_cons .str s items

theorem size_groups (groups : List (List JsString)) :
    Json.size (.arr (groups.map strings)) = groupsBytes groups := by
  cases groups with
  | nil => rfl
  | cons g groups =>
      rw [size_arr_cons, groupsBytes]
      simp only [size_strings]

theorem size_bool (b : Bool) : Json.size (.bool b) = boolBytes b := by cases b <;> rfl

theorem size_nat (n : Nat) : Json.size (.nat n) = digits n := by rw [Json.size, digits]

theorem size_str (s : JsString) : Json.size (.str s) = Json.escapedBytes s + 2 := by rw [Json.size]

/-- The member names of a request and its parts are written as they are. -/
theorem escapedBytes_names : ∀ m ∈ [("pattern", 7), ("kind", 4), ("caseSensitive", 13),
    ("maxMatches", 10), ("maxFileBytes", 12), ("responseBytes", 13), ("deadlineMs", 10), ("scope", 5),
    ("validateScopeOnly", 17), ("read", 4), ("maxEntries", 10), ("maxDepth", 8), ("v", 1), ("id", 2),
    ("includeGroups", 13), ("exclude", 7), ("hidden", 6), ("respectIgnore", 13), ("path", 4),
    ("range", 5), ("expectedFileSha256", 18), ("start", 5), ("end", 3)],
    Json.escapedBytes (units m.1) = m.2 := by
  decide +kernel

theorem size_range (r : Worker.Range) : Json.size (rangeJson r) = rangeBytes r := by
  have h := escapedBytes_names
  simp only [List.forall_mem_cons] at h
  simp only [rangeJson, size_objectOf, List.foldr_cons, List.foldr_nil, memberBytes,
    optionBytes_some, size_nat, h, rangeBytes]
  omega

theorem size_scope (s : WorkerScope) : Json.size s.json = scopeBytes s := by
  have h := escapedBytes_names
  simp only [List.forall_mem_cons] at h
  simp only [WorkerScope.json, size_objectOf, List.foldr_cons, List.foldr_nil, memberBytes,
    optionBytes_some, size_groups, size_strings, size_bool, h, scopeBytes]
  omega

theorem size_read (r : WorkerRead) : Json.size r.json = readBytes r := by
  have h := escapedBytes_names
  simp only [List.forall_mem_cons] at h
  have hdigest : optionBytes (fun v => 18 + 4 + Json.size (.str v)) r.expectedFileSha256
      = optionBytes (fun digest => 24 + Json.escapedBytes digest) r.expectedFileSha256 := by
    cases r.expectedFileSha256 with
    | none => rfl
    | some digest =>
        rw [optionBytes_some, optionBytes_some, size_str]
        omega
  simp only [WorkerRead.json, size_objectOf, List.foldr_cons, List.foldr_nil, memberBytes,
    optionBytes_some, optionBytes_map, size_range, h, readBytes]
  rw [hdigest, size_str]
  omega

theorem size_kind (k : Worker.QueryKind) : Json.size (kindJson k) = kindBytes k := by
  cases k <;> decide +kernel

/-- `requestBytes` is the size of the body. -/
theorem length_requestBody (r : WorkerRequest) (remaining : Nat) :
    (requestBody r remaining).length = requestBytes r remaining := by
  have h := escapedBytes_names
  simp only [List.forall_mem_cons] at h
  have hone : digits 1 = 1 := by decide
  have hscope : optionBytes (fun s => 5 + 4 + Json.size (WorkerScope.json s)) r.scope
      = optionBytes (fun s => 9 + scopeBytes s) r.scope := by
    simp only [size_scope]
  have hvalidate : optionBytes (fun b => 17 + 4 + Json.size (.bool b)) r.validateScopeOnly
      = optionBytes (fun b => 21 + boolBytes b) r.validateScopeOnly := by
    simp only [size_bool]
  have hread : optionBytes (fun q => 4 + 4 + Json.size (WorkerRead.json q)) r.read
      = optionBytes (fun q => 8 + readBytes q) r.read := by
    simp only [size_read]
  rw [requestBody, Utf8.length_encode, Json.utf8Len_print]
  simp only [WorkerRequest.json, size_objectOf, List.foldr_cons, List.foldr_nil, memberBytes,
    optionBytes_map, h, requestBytes]
  rw [hscope, hvalidate, hread]
  simp only [optionBytes_some, size_str, size_nat, size_bool, size_kind, hone]
  clear h hone hscope hvalidate hread
  omega

/-! ## §4 — reading back what `JSON.stringify` wrote. -/

/-- A member of an object is there, or it is not. -/
def fieldFor : Option Json → Field
  | some v => .given v
  | none => .missing

/-- What a struct's reader finds under a name in an object of the client. -/
def fieldOf (ms : List (String × Option Json)) (name : String) : Field :=
  fieldFor ((ms.find? (·.1 == name)).bind (·.2))

theorem find_objectOf {ms : List (String × Option Json)} (h : (ms.map (·.1)).Nodup) (name : String) :
    (ms.filterMap fun m => m.2.map (units m.1, ·)).find? (·.1 == units name)
      = ((ms.find? (·.1 == name)).bind (·.2)).map (units name, ·) := by
  induction ms with
  | nil => rfl
  | cons m ms ih =>
      obtain ⟨n, value⟩ := m
      rw [List.map_cons, List.nodup_cons] at h
      by_cases hn : n = name
      · subst hn
        have hrest : ms.find? (·.1 == n) = none := by
          rw [List.find?_eq_none]
          intro m hm heq
          exact h.1 (List.mem_map.mpr ⟨m, hm, beq_iff_eq.mp heq⟩)
        rw [List.find?_cons_of_pos (by simp)]
        cases value with
        | none =>
            have hskip := ih h.2
            rw [hrest] at hskip
            exact hskip
        | some v =>
            rw [List.filterMap_cons]
            exact List.find?_cons_of_pos (by simp)
      · rw [List.find?_cons_of_neg (by simpa using hn)]
        cases value with
        | none => exact ih h.2
        | some v =>
            rw [List.filterMap_cons, ← ih h.2]
            refine List.find?_cons_of_neg ?_
            show ¬ (units n == units name) = true
            rw [beq_iff_eq]
            exact fun heq => hn (units_injective heq)

/-- An object of the client has no repeated member, so every field is found. -/
theorem structFields_objectOf {names : List String} {ms : List (String × Option Json)}
    (hnames : ∀ m ∈ ms, m.1 ∈ names) (hnodup : (ms.map (·.1)).Nodup) :
    structFields names (objectOf ms) = some (fieldOf ms) := by
  have hall : ((ms.filterMap fun m => m.2.map (units m.1, ·)).all fun m =>
      names.any fun name => units name == m.1) = true := by
    rw [List.all_eq_true]
    intro m hm
    obtain ⟨⟨n, value⟩, hn, hv⟩ := List.mem_filterMap.mp hm
    obtain ⟨v, -, rfl⟩ := Option.map_eq_some_iff.mp hv
    exact List.any_eq_true.mpr ⟨n, hnames _ hn, by simp⟩
  have hkeys : ((ms.filterMap fun m => m.2.map (units m.1, ·)).map (·.1)).Nodup := by
    have hsub : ((ms.filterMap fun m => m.2.map (units m.1, ·)).map (·.1)).Sublist
        ((ms.map (·.1)).map units) := by
      clear hnames hnodup hall
      induction ms with
      | nil => exact List.Sublist.refl _
      | cons m ms ih =>
          obtain ⟨n, value⟩ := m
          cases value with
          | none => exact ih.cons _
          | some v => exact ih.cons_cons _
    exact hsub.nodup (List.Nodup.map units_injective hnodup)
  unfold structFields objectOf
  dsimp only
  rw [if_pos ⟨hall, hkeys⟩]
  congr 1
  funext name
  rw [find_objectOf hnodup, fieldOf]
  cases (ms.find? (·.1 == name)).bind (·.2) <;> rfl

theorem mapM_map_some {α β : Type} {f : α → β} {g : β → Option α} (h : ∀ a, g (f a) = some a)
    (items : List α) : (items.map f).mapM g = some items := by
  induction items with
  | nil => rfl
  | cons a items ih => rw [List.map_cons, List.mapM_cons, h, ih]; rfl

theorem deString_encode (s : Str) : deString (.str (encode s)) = some s := decode_encode s

theorem deVec_strings (items : List Str) :
    deVec deString (strings (items.map encode)) = some items := by
  show ((items.map encode).map Json.str).mapM deString = some items
  rw [List.map_map]
  exact mapM_map_some deString_encode items

theorem deVec_groups (groups : List (List Str)) :
    deVec (deVec deString) (.arr (groups.map (strings ∘ fun g => g.map encode))) = some groups :=
  mapM_map_some deVec_strings groups

theorem deUnsigned_nat {values n : Nat} (h : n < values) : deUnsigned values (.nat n) = some n := if_pos h

theorem deScopeInput_json (t : Worker.ScopeInput) :
    deScopeInput (WorkerScope.ofInput t).json = some t := by
  rw [deScopeInput, WorkerScope.json, structFields_objectOf (by simp) (by simp)]
  simp [fieldOf, fieldFor, Field.withDefault, WorkerScope.ofInput, deVec_groups, deVec_strings,
    Schema.bool]

theorem deRange_json {r : Worker.Range} (h₁ : r.start < U64) (h₂ : r.stop < U64) :
    deRange (rangeJson r) = some r := by
  rw [deRange, rangeJson, structFields_objectOf (by simp) (by simp)]
  simp [fieldOf, fieldFor, Field.need, deUnsigned_nat h₁, deUnsigned_nat h₂]

theorem deReadRequest_json {t : Worker.ReadRequest} (h₁ : t.range.start < U64)
    (h₂ : t.range.stop < U64) : deReadRequest (WorkerRead.ofInput t).json = some t := by
  rw [deReadRequest, WorkerRead.json, structFields_objectOf (by simp) (by simp)]
  obtain ⟨path, range, digest⟩ := t
  cases digest <;>
    simp [fieldOf, fieldFor, Field.need, Field.option, WorkerRead.ofInput, deString_encode, deRange_json h₁ h₂,
      deOption]

/-- The numbers of a request fit the worker's integers. -/
structure Fits (r : WorkerRequest) (remaining : Nat) : Prop where
  maxMatches : r.maxMatches < U64
  maxFileBytes : r.maxFileBytes < U64
  responseBytes : r.responseBytes < U64
  deadlineMs : remaining < U64
  maxEntries : r.maxEntries < U64
  maxDepth : r.maxDepth < U64
  read : ∀ q, r.read = some q → q.range.start < U64 ∧ q.range.stop < U64

theorem deKind_json (k : Worker.QueryKind) : deKind (kindJson k) = some k := by
  cases k <;> decide +kernel

/-- The members `send` writes. -/
def requestMembers (r : WorkerRequest) (remaining : Nat) : List (String × Option Json) :=
  [("pattern", some (.str r.pattern)), ("kind", some (kindJson r.kind)),
    ("caseSensitive", some (.bool r.caseSensitive)), ("maxMatches", some (.nat r.maxMatches)),
    ("maxFileBytes", some (.nat r.maxFileBytes)), ("responseBytes", some (.nat r.responseBytes)),
    ("deadlineMs", some (.nat remaining)), ("scope", r.scope.map WorkerScope.json),
    ("validateScopeOnly", r.validateScopeOnly.map .bool), ("read", r.read.map WorkerRead.json),
    ("maxEntries", some (.nat r.maxEntries)), ("maxDepth", some (.nat r.maxDepth)),
    ("v", some (.nat 1)), ("id", some (.str r.id))]

/-- The fields of the worker's `Request`. -/
def requestNames : List String :=
  ["v", "id", "pattern", "kind", "caseSensitive", "maxMatches", "maxFileBytes", "responseBytes",
    "deadlineMs", "maxEntries", "maxDepth", "scope", "validateScopeOnly", "read"]

/-- The worker reads the client's text as the request it is the text of. -/
theorem deRequest_json {r : WorkerRequest} {remaining : Nat} {t : Worker.Request}
    (hfits : Fits r remaining) (h : SameRequest r remaining t) :
    deRequest (r.json remaining) = some t := by
  have hscope : (fieldFor (r.scope.map WorkerScope.json)).withDefault {} deScopeInput
      = some t.scope := by
    cases hs : r.scope with
    | none => rw [h.scope.1 hs]; rfl
    | some s =>
        rw [← h.scope.2 s hs]
        exact deScopeInput_json t.scope
  have hvalidate : (fieldFor (r.validateScopeOnly.map Json.bool)).withDefault false Schema.bool
      = some t.validateScopeOnly := by
    rw [h.validateScopeOnly]
    cases r.validateScopeOnly <;> rfl
  have hread : (fieldFor (r.read.map WorkerRead.json)).withDefault none (deOption deReadRequest)
      = some t.read := by
    have hr := h.read
    cases ht : t.read with
    | none =>
        rw [ht, Option.map_none] at hr
        rw [← hr]
        rfl
    | some q =>
        rw [ht, Option.map_some] at hr
        have hq := hfits.read _ hr.symm
        rw [← hr]
        show ((deReadRequest (WorkerRead.ofInput q).json).map some) = some (some q)
        rw [deReadRequest_json hq.1 hq.2, Option.map_some]
  have hid : deString (.str r.id) = some t.id := by rw [← h.id]; exact deString_encode t.id
  have hpattern : deString (.str r.pattern) = some t.pattern := by
    rw [← h.pattern]
    exact deString_encode t.pattern
  have hone : deUnsigned 256 (.nat 1) = some 1 := rfl
  have hcase : Schema.bool (.bool r.caseSensitive) = some r.caseSensitive := rfl
  let ms := requestMembers r remaining
  have hfields : structFields requestNames (r.json remaining) = some (fieldOf ms) :=
    structFields_objectOf (by simp [requestNames]) (by simp)
  -- every field by the lookup of its name
  have f₁ : (fieldOf ms "v").need (deUnsigned 256) = some 1 := hone
  have f₂ : (fieldOf ms "id").need deString = some t.id := hid
  have f₃ : (fieldOf ms "pattern").need deString = some t.pattern := hpattern
  have f₄ : (fieldOf ms "kind").need deKind = some r.kind := deKind_json r.kind
  have f₅ : (fieldOf ms "caseSensitive").need Schema.bool = some r.caseSensitive := hcase
  have f₆ : (fieldOf ms "maxMatches").need (deUnsigned U64) = some r.maxMatches :=
    deUnsigned_nat hfits.maxMatches
  have f₇ : (fieldOf ms "maxFileBytes").need (deUnsigned U64) = some r.maxFileBytes :=
    deUnsigned_nat hfits.maxFileBytes
  have f₈ : (fieldOf ms "responseBytes").need (deUnsigned U64) = some r.responseBytes :=
    deUnsigned_nat hfits.responseBytes
  have f₉ : (fieldOf ms "deadlineMs").need (deUnsigned U64) = some remaining :=
    deUnsigned_nat hfits.deadlineMs
  have f₁₀ : (fieldOf ms "maxEntries").need (deUnsigned U64) = some r.maxEntries :=
    deUnsigned_nat hfits.maxEntries
  have f₁₁ : (fieldOf ms "maxDepth").need (deUnsigned U64) = some r.maxDepth :=
    deUnsigned_nat hfits.maxDepth
  have f₁₂ : (fieldOf ms "scope").withDefault {} deScopeInput = some t.scope := hscope
  have f₁₃ : (fieldOf ms "validateScopeOnly").withDefault false Schema.bool
      = some t.validateScopeOnly := hvalidate
  have f₁₄ : (fieldOf ms "read").withDefault none (deOption deReadRequest) = some t.read := hread
  unfold deRequest
  refine some_bind hfields ?_
  refine some_bind f₁ (some_bind f₂ (some_bind f₃ (some_bind f₄ (some_bind f₅ ?_))))
  refine some_bind f₆ (some_bind f₇ (some_bind f₈ (some_bind f₉ (some_bind f₁₀ ?_))))
  refine some_bind f₁₁ (some_bind f₁₂ (some_bind f₁₃ (some_bind f₁₄ ?_)))
  rw [← h.v, ← h.kind, ← h.caseSensitive, ← h.maxMatches, ← h.maxFileBytes, ← h.responseBytes,
    ← h.deadlineMs, ← h.maxEntries, ← h.maxDepth]
  rfl

/-! ## §5 — frames. -/

theorem fromBeBytes_be32 {n : Nat} (h : n < 4294967296) (rest : Bytes) :
    ∃ a b c d, be32 n ++ rest = a :: b :: c :: d :: rest ∧ fromBeBytes a b c d = n := by
  refine ⟨_, _, _, _, rfl, ?_⟩
  simp only [fromBeBytes, UInt8.toNat_ofNat']
  omega

/-- A frame with a body within the cap is read as the request of its body. -/
theorem receive_frame {body rest : Bytes} {t : Worker.Request} (hlen : 1 ≤ body.length)
    (hcap : body.length ≤ FRAME_CAP) (ht : fromSlice body = some t) :
    receive (be32 body.length ++ body ++ rest) = .request t rest := by
  have hsmall : body.length < 4294967296 := Nat.lt_of_le_of_lt hcap (by decide)
  obtain ⟨a, b, c, d, hbytes, hsize⟩ := fromBeBytes_be32 hsmall (body ++ rest)
  rw [List.append_assoc, hbytes, receive]
  simp only [hsize]
  rw [if_neg (by omega), if_neg (by rw [List.length_append]; omega), List.take_left, List.drop_left]
  simp only [ht]

theorem fromSlice_requestBody (r : WorkerRequest) (remaining : Nat) :
    fromSlice (requestBody r remaining) = deRequest (r.json remaining) := by
  rw [fromSlice, requestBody, Utf8.decode_encode, Option.bind_some, Json.parse_print, Option.bind_some]

/-! ## §6 — what `search` has checked. -/

theorem required_eq_some {α : Type} {members : List (List UInt16 × Json)} {name : String}
    {read : Json → Option α} {a : α} (h : required members name read = some a) :
    ∃ v, read v = some a := by
  obtain ⟨v, -, hv⟩ := Option.bind_eq_some_iff.mp h
  exact ⟨v, hv⟩

theorem optional_eq_some {α : Type} {members : List (List UInt16 × Json)} {name : String}
    {read : Json → Option α} {a : α} (h : optional members name read = some (some a)) :
    ∃ v, read v = some a := by
  unfold Schema.optional at h
  split at h
  · cases h
  · rename_i v _
    obtain ⟨b, hb, he⟩ := Option.map_eq_some_iff.mp h
    obtain rfl := Option.some.inj he
    exact ⟨v, hb⟩

theorem int_eq_some {least most n : Nat} {v : Json} (h : int least most v = some n) :
    least ≤ n ∧ n ≤ most := by
  cases v with
  | nat k =>
      rw [int] at h
      split at h
      · rename_i hk
        obtain rfl := Option.some.inj h
        simp only [Bool.and_eq_true, decide_eq_true_eq] at hk
        exact hk.1
      · cases h
  | _ => cases h

theorem required_int {members : List (List UInt16 × Json)} {name : String} {least most n : Nat}
    (h : required members name (int least most) = some n) : least ≤ n ∧ n ≤ most := by
  obtain ⟨v, hv⟩ := required_eq_some h
  exact int_eq_some hv

theorem rangeSchema_eq_some {v : Json} {r : Worker.Range} (h : rangeSchema v = some r) :
    r.start ≤ MAX_SAFE_INTEGER ∧ r.stop ≤ MAX_SAFE_INTEGER := by
  obtain ⟨_, -, h⟩ := bind_some h
  obtain ⟨start, hstart, h⟩ := bind_some h
  obtain ⟨stop, hstop, h⟩ := bind_some h
  obtain rfl := Option.some.inj h
  exact ⟨(required_int hstart).2, (required_int hstop).2⟩

/-- What a read that passed its schema satisfies. -/
theorem workerReadSchema_eq_some {v : Json} {q : WorkerRead} (h : workerReadSchema v = some q) :
    q.range.start ≤ MAX_SAFE_INTEGER ∧ q.range.stop ≤ MAX_SAFE_INTEGER ∧
      ∀ d, q.expectedFileSha256 = some d → isDigest d = true := by
  obtain ⟨_, -, h⟩ := bind_some h
  obtain ⟨path, -, h⟩ := bind_some h
  obtain ⟨range, hrange, h⟩ := bind_some h
  obtain ⟨digest, hdigest, h⟩ := bind_some h
  obtain rfl := Option.some.inj h
  obtain ⟨w, hw⟩ := required_eq_some hrange
  refine ⟨(rangeSchema_eq_some hw).1, (rangeSchema_eq_some hw).2, ?_⟩
  rintro d rfl
  obtain ⟨w, hw⟩ := optional_eq_some hdigest
  exact (Option.filter_eq_some_iff.mp hw).2

/-- What an accepted input has become. -/
structure Accepted (k : Nat) (r : WorkerRequest) : Prop where
  id : r.id = requestId k
  pattern : isWellFormed r.pattern = true
  maxMatches : r.maxMatches ≤ 1000
  maxFileBytes : r.maxFileBytes ≤ 16777216
  responseBytes : r.responseBytes ≤ FRAME_CAP
  deadlineMs : r.deadlineMs ≤ 30000
  maxEntries : r.maxEntries ≤ 100000
  maxDepth : r.maxDepth ≤ 64
  read : ∀ q, r.read = some q → q.range.start ≤ MAX_SAFE_INTEGER ∧
    q.range.stop ≤ MAX_SAFE_INTEGER ∧ ∀ d, q.expectedFileSha256 = some d → isDigest d = true

theorem acceptInput_spec {k : Nat} {input : List (List UInt16 × Json)} {r : WorkerRequest}
    (h : acceptInput (requestId k) input = some r) : Accepted k r := by
  obtain ⟨hschema, hchecks⟩ := Option.filter_eq_some_iff.mp h
  simp only [Bool.and_eq_true] at hchecks
  obtain ⟨_, -, h⟩ := bind_some hschema
  obtain ⟨pattern, -, h⟩ := bind_some h
  obtain ⟨kind, -, h⟩ := bind_some h
  obtain ⟨caseSensitive, -, h⟩ := bind_some h
  obtain ⟨maxMatches, hmatches, h⟩ := bind_some h
  obtain ⟨maxFileBytes, hfile, h⟩ := bind_some h
  obtain ⟨responseBytes, hresponse, h⟩ := bind_some h
  obtain ⟨deadlineMs, hdeadline, h⟩ := bind_some h
  obtain ⟨scope, -, h⟩ := bind_some h
  obtain ⟨validate, -, h⟩ := bind_some h
  obtain ⟨read, hread, h⟩ := bind_some h
  obtain ⟨maxEntries, hentries, h⟩ := bind_some h
  obtain ⟨maxDepth, hdepth, h⟩ := bind_some h
  obtain rfl := Option.some.inj h
  exact {
    id := rfl
    pattern := hchecks.1.1
    maxMatches := (required_int hmatches).2
    maxFileBytes := (required_int hfile).2
    responseBytes := (required_int hresponse).2
    deadlineMs := (required_int hdeadline).2
    maxEntries := (required_int hentries).2
    maxDepth := (required_int hdepth).2
    read := fun q hq => by
      obtain rfl : read = some q := hq
      obtain ⟨v, hv⟩ := optional_eq_some hread
      exact workerReadSchema_eq_some hv }

theorem Accepted.fits {k : Nat} {r : WorkerRequest} (h : Accepted k r) {remaining : Nat}
    (hremaining : remaining ≤ r.deadlineMs) : Fits r remaining := by
  have hd := h.deadlineMs
  have hr := h.responseBytes
  have hcap : FRAME_CAP < U64 := by decide
  have hsafe : MAX_SAFE_INTEGER < U64 := by decide
  exact {
    maxMatches := Nat.lt_of_le_of_lt h.maxMatches (by decide)
    maxFileBytes := Nat.lt_of_le_of_lt h.maxFileBytes (by decide)
    responseBytes := Nat.lt_of_le_of_lt hr hcap
    deadlineMs := Nat.lt_of_le_of_lt (hremaining.trans hd) (by decide)
    maxEntries := Nat.lt_of_le_of_lt h.maxEntries (by decide)
    maxDepth := Nat.lt_of_le_of_lt h.maxDepth (by decide)
    read := fun q hq => ⟨Nat.lt_of_le_of_lt (h.read q hq).1 hsafe,
      Nat.lt_of_le_of_lt (h.read q hq).2.1 hsafe⟩ }

/-! ## §7 — which requests get through. -/

theorem isWellFormed_digest {d : JsString} (h : isDigest d = true) : isWellFormed d = true := by
  apply isWellFormed_of_plain
  intro u hu
  simp only [isDigest, Bool.and_eq_true, List.all_eq_true, Bool.or_eq_true, decide_eq_true_eq] at h
  have := h.2 u hu
  omega

/-- The worker's form of a list of well-formed strings. -/
theorem exists_strings {items : List JsString} (h : ∀ s ∈ items, isWellFormed s = true) :
    ∃ strs : List Str, strs.map encode = items := by
  induction items with
  | nil => exact ⟨[], rfl⟩
  | cons s items ih =>
      obtain ⟨cs, rfl⟩ := isWellFormed_iff.mp (h s List.mem_cons_self)
      obtain ⟨strs, rfl⟩ := ih fun t ht => h t (List.mem_cons_of_mem _ ht)
      exact ⟨cs :: strs, rfl⟩

theorem exists_groups {groups : List (List JsString)}
    (h : ∀ s ∈ groups.flatten, isWellFormed s = true) :
    ∃ strs : List (List Str), strs.map (·.map encode) = groups := by
  induction groups with
  | nil => exact ⟨[], rfl⟩
  | cons g groups ih =>
      rw [List.flatten_cons] at h
      obtain ⟨strs, rfl⟩ := exists_strings fun s hs => h s (List.mem_append_left _ hs)
      obtain ⟨rest, rfl⟩ := ih fun s hs => h s (List.mem_append_right _ hs)
      exact ⟨strs :: rest, rfl⟩

/-- With well-formed strings a request has a form the worker can hold. -/
theorem exists_sameRequest {k : Nat} {r : WorkerRequest} (h : Accepted k r)
    (hwf : ∀ s ∈ r.uncheckedStrings, isWellFormed s = true) (remaining : Nat) :
    ∃ t, SameRequest r remaining t := by
  obtain ⟨pattern, hpattern⟩ := isWellFormed_iff.mp h.pattern
  have hscope : ∃ scope : Worker.ScopeInput, (r.scope = none → scope = {}) ∧
      ∀ s, r.scope = some s → WorkerScope.ofInput scope = s := by
    cases hs : r.scope with
    | none => exact ⟨{}, fun _ => rfl, nofun⟩
    | some s =>
        have hin : ∀ u ∈ s.includeGroups.flatten ++ s.exclude, isWellFormed u = true := by
          intro u hu
          apply hwf
          rw [WorkerRequest.uncheckedStrings, hs]
          exact List.mem_append_left _ hu
        obtain ⟨groups, hgroups⟩ := exists_groups fun u hu => hin u (List.mem_append_left _ hu)
        obtain ⟨exclude, hexclude⟩ := exists_strings fun u hu => hin u (List.mem_append_right _ hu)
        refine ⟨⟨groups, exclude, s.hidden, s.respectIgnore⟩, nofun, ?_⟩
        rintro _ ⟨⟩
        rw [WorkerScope.ofInput, hgroups, hexclude]
  have hread : ∃ read : Option Worker.ReadRequest, read.map WorkerRead.ofInput = r.read := by
    cases hq : r.read with
    | none => exact ⟨none, rfl⟩
    | some q =>
        have hpath : isWellFormed q.path = true := by
          apply hwf
          rw [WorkerRequest.uncheckedStrings, hq]
          exact List.mem_append_right _ List.mem_cons_self
        obtain ⟨path, hp⟩ := isWellFormed_iff.mp hpath
        have hdigest : ∃ digest : Option Str, digest.map encode = q.expectedFileSha256 := by
          cases hd : q.expectedFileSha256 with
          | none => exact ⟨none, rfl⟩
          | some d =>
              obtain ⟨cs, rfl⟩ := isWellFormed_iff.mp (isWellFormed_digest ((h.read q hq).2.2 d hd))
              exact ⟨some cs, rfl⟩
        obtain ⟨digest, hd⟩ := hdigest
        refine ⟨some ⟨path, q.range, digest⟩, ?_⟩
        rw [Option.map_some, WorkerRead.ofInput, hd, ← hp]
  obtain ⟨scope, hscope⟩ := hscope
  obtain ⟨read, hread⟩ := hread
  refine ⟨{
    v := 1, id := "q-".toList ++ Nat.toDigits 10 k, pattern := pattern, kind := r.kind
    caseSensitive := r.caseSensitive, maxMatches := r.maxMatches, maxFileBytes := r.maxFileBytes
    responseBytes := r.responseBytes, deadlineMs := remaining, maxEntries := r.maxEntries
    maxDepth := r.maxDepth, scope := scope, validateScopeOnly := r.validateScopeOnly.getD false
    read := read }, ?_⟩
  exact {
    v := rfl, id := h.id.symm, pattern := hpattern.symm, kind := rfl, caseSensitive := rfl
    maxMatches := rfl, maxFileBytes := rfl, responseBytes := rfl, deadlineMs := rfl
    maxEntries := rfl, maxDepth := rfl, scope := hscope, validateScopeOnly := rfl, read := hread }

/-- A request with a form the worker can hold has well-formed strings. -/
theorem SameRequest.wellFormed {r : WorkerRequest} {remaining : Nat} {t : Worker.Request}
    (h : SameRequest r remaining t) : ∀ s ∈ r.uncheckedStrings, isWellFormed s = true := by
  intro s hs
  rcases List.mem_append.mp hs with hs | hs
  · cases hscope : r.scope with
    | none =>
        rw [hscope] at hs
        cases hs
    | some scope =>
        rw [hscope, ← h.scope.2 scope hscope] at hs
        simp only [WorkerScope.ofInput] at hs
        rcases List.mem_append.mp hs with hs | hs
        · obtain ⟨g, hg, hs⟩ := List.mem_flatten.mp hs
          obtain ⟨strs, -, rfl⟩ := List.mem_map.mp hg
          obtain ⟨cs, -, rfl⟩ := List.mem_map.mp hs
          exact isWellFormed_encode cs
        · obtain ⟨cs, -, rfl⟩ := List.mem_map.mp hs
          exact isWellFormed_encode cs
  · have hread := h.read
    cases ht : t.read with
    | none =>
        rw [ht] at hread
        rw [← hread] at hs
        cases hs
    | some q =>
        rw [ht, Option.map_some] at hread
        rw [← hread] at hs
        obtain rfl := List.mem_singleton.mp hs
        exact isWellFormed_encode q.path

theorem mapM_isSome {α β : Type} {f : α → Option β} : ∀ {items : List α} {out : List β},
    items.mapM f = some out → ∀ a ∈ items, (f a).isSome = true
  | [], _, _, a, ha => absurd ha List.not_mem_nil
  | b :: items, out, h, a, ha => by
      rw [List.mapM_cons] at h
      obtain ⟨c, hc, h⟩ := bind_some h
      obtain ⟨rest, hrest, -⟩ := bind_some h
      rcases List.mem_cons.1 ha with rfl | ha
      · rw [hc]
        rfl
      · exact mapM_isSome hrest a ha

/-- A string that the worker reads is well formed. -/
theorem isWellFormed_of_deString {s : JsString} (h : (deString (.str s)).isSome = true) :
    isWellFormed s = true := h

theorem isWellFormed_of_deVec {items : List JsString} {out : List Str}
    (h : deVec deString (strings items) = some out) : ∀ s ∈ items, isWellFormed s = true := by
  intro s hs
  have hread : (items.map Json.str).mapM deString = some out := h
  exact isWellFormed_of_deString (mapM_isSome hread _ (List.mem_map_of_mem hs))

/-- What the worker decodes of an accepted request has well-formed strings. -/
theorem wellFormed_of_decoded {r : WorkerRequest} {remaining : Nat} {t : Worker.Request}
    (h : deRequest (r.json remaining) = some t) : ∀ s ∈ r.uncheckedStrings, isWellFormed s = true := by
  have hfields : structFields requestNames (r.json remaining)
      = some (fieldOf (requestMembers r remaining)) :=
    structFields_objectOf (by simp [requestNames]) (by simp)
  obtain ⟨field, hfield, h⟩ := bind_some h
  have heq : field = fieldOf (requestMembers r remaining) := Option.some.inj (hfield.symm.trans hfields)
  subst heq
  obtain ⟨_, -, h⟩ := bind_some h
  obtain ⟨_, -, h⟩ := bind_some h
  obtain ⟨_, -, h⟩ := bind_some h
  obtain ⟨_, -, h⟩ := bind_some h
  obtain ⟨_, -, h⟩ := bind_some h
  obtain ⟨_, -, h⟩ := bind_some h
  obtain ⟨_, -, h⟩ := bind_some h
  obtain ⟨_, -, h⟩ := bind_some h
  obtain ⟨_, -, h⟩ := bind_some h
  obtain ⟨_, -, h⟩ := bind_some h
  obtain ⟨_, -, h⟩ := bind_some h
  -- only the scope and the read have strings that the client does not check
  obtain ⟨scope, hscope, h⟩ := bind_some h
  obtain ⟨_, -, h⟩ := bind_some h
  obtain ⟨read, hread, -⟩ := bind_some h
  change (fieldFor (r.scope.map WorkerScope.json)).withDefault {} deScopeInput = some scope at hscope
  change (fieldFor (r.read.map WorkerRead.json)).withDefault none (deOption deReadRequest)
    = some read at hread
  intro s hs
  rcases List.mem_append.1 hs with hs | hs
  · cases hr : r.scope with
    | none =>
      rw [hr] at hs
      cases hs
    | some sc =>
      rw [hr] at hs hscope
      have hsc : deScopeInput sc.json = some scope := hscope
      rw [deScopeInput, WorkerScope.json, structFields_objectOf (by simp) (by simp)] at hsc
      obtain ⟨_, hfound, hsc⟩ := bind_some hsc
      obtain rfl := Option.some.inj hfound
      obtain ⟨groups, hgroups, hsc⟩ := bind_some hsc
      obtain ⟨exclude, hexclude, -⟩ := bind_some hsc
      rcases List.mem_append.1 hs with hs | hs
      · have hg : (sc.includeGroups.map strings).mapM (deVec deString) = some groups := hgroups
        obtain ⟨g, hmem, hs⟩ := List.mem_flatten.1 hs
        have hsome := mapM_isSome hg _ (List.mem_map_of_mem hmem)
        obtain ⟨out, hout⟩ := Option.isSome_iff_exists.1 hsome
        exact isWellFormed_of_deVec hout s hs
      · exact isWellFormed_of_deVec hexclude s hs
  · cases hr : r.read with
    | none =>
      rw [hr] at hs
      cases hs
    | some q =>
      rw [hr] at hs hread
      obtain rfl := List.mem_singleton.1 hs
      have hq : (deReadRequest q.json).map some = some read := hread
      obtain ⟨out, hout, -⟩ := Option.map_eq_some_iff.1 hq
      rw [deReadRequest, WorkerRead.json, structFields_objectOf (by simp) (by simp)] at hout
      obtain ⟨_, hfound, hout⟩ := bind_some hout
      obtain rfl := Option.some.inj hfound
      obtain ⟨path, hpath, -⟩ := bind_some hout
      have hp : deString (.str q.path) = some path := hpath
      exact isWellFormed_of_deString (by rw [hp]; rfl)

/-- **What the worker decodes is the request that was sent.** -/
theorem sameRequest_of_decoded {k : Nat} {r : WorkerRequest} {remaining : Nat} {t : Worker.Request}
    (h : Accepted k r) (hremaining : remaining ≤ r.deadlineMs)
    (ht : fromSlice (requestBody r remaining) = some t) : SameRequest r remaining t := by
  rw [fromSlice_requestBody] at ht
  obtain ⟨t', hsame⟩ := exists_sameRequest h (wellFormed_of_decoded ht) remaining
  have hdecode := deRequest_json (h.fits hremaining) hsame
  rw [ht] at hdecode
  rw [Option.some.inj hdecode]
  exact hsame

/-- The id fits a failure's 128 characters as long as the sequence number is an exact integer. -/
theorem length_requestId {k : Nat} (hk : k ≤ MAX_SAFE_INTEGER) :
    ("q-".toList ++ Nat.toDigits 10 k).length ≤ 128 := by
  have hdigits : (Nat.toDigits 10 k).length ≤ 16 := by
    rw [Nat.length_toDigits_le_iff (by decide) (by decide)]
    exact Nat.lt_of_le_of_lt hk (by decide)
  rw [List.length_append]
  show 2 + _ ≤ 128
  omega

/-- An accepted request with well-formed strings and a body within the cap is carried. -/
theorem carried_of {k : Nat} {r : WorkerRequest} {remaining : Nat} (hk : k ≤ MAX_SAFE_INTEGER)
    (h : Accepted k r) (hremaining : remaining ≤ r.deadlineMs)
    (hwf : ∀ s ∈ r.uncheckedStrings, isWellFormed s = true)
    (hcap : requestBytes r remaining ≤ FRAME_CAP) : Carried r remaining := by
  obtain ⟨t, ht⟩ := exists_sameRequest h hwf remaining
  have hlen : (requestBody r remaining).length = requestBytes r remaining := length_requestBody r _
  have hpos : 1 ≤ (requestBody r remaining).length := by
    rw [hlen, requestBytes]
    omega
  have hdecode : fromSlice (requestBody r remaining) = some t := by
    rw [fromSlice_requestBody]
    exact deRequest_json (h.fits hremaining) ht
  refine ⟨hpos, by rw [hlen]; exact hcap, fun rest => ⟨t, ?_, ht, ?_⟩⟩
  · exact receive_frame hpos (by rw [hlen]; exact hcap) hdecode
  · intro result hresult
    cases result with
    | ok s => rw [replyId, hresult s rfl, ht.id]
    | error code =>
        have hid : t.id = "q-".toList ++ Nat.toDigits 10 k :=
          encode_injective (ht.id.trans h.id)
        rw [replyId, List.take_of_length_le (by rw [hid]; exact length_requestId hk), ht.id]

theorem Carried.wellFormed {r : WorkerRequest} {remaining : Nat} (h : Carried r remaining) :
    ∀ s ∈ r.uncheckedStrings, isWellFormed s = true := by
  obtain ⟨t, -, ht, -⟩ := h.received []
  exact ht.wellFormed

/-- **Which accepted requests the protocol carries**: those whose scope strings and read path have no
lone surrogate and whose body, with every control character counted six times, fits the frame. -/
theorem carried_iff {k : Nat} {input : List (List UInt16 × Json)} {p : Pending} {now : Int}
    (hk : k ≤ MAX_SAFE_INTEGER) (haccept : acceptInput (requestId k) input = some p.request)
    (hstarted : p.startedAt ≤ now) (hsent : 0 < remainingMs p now) :
    Carried p.request (remainingMs p now).toNat ↔
      (∀ s ∈ p.request.uncheckedStrings, isWellFormed s = true) ∧
        requestBytes p.request (remainingMs p now).toNat ≤ FRAME_CAP := by
  have hspec := acceptInput_spec haccept
  have hremaining : (remainingMs p now).toNat ≤ p.request.deadlineMs := by
    unfold remainingMs at hsent ⊢
    omega
  constructor
  · intro h
    refine ⟨h.wellFormed, ?_⟩
    rw [← length_requestBody]
    exact h.capped
  · rintro ⟨hwf, hcap⟩
    exact carried_of hk hspec hremaining hwf hcap

/-- A search for `a` with every default. -/
def plainRequest : WorkerRequest where
  id := requestId 1
  pattern := units "a"
  kind := .literal
  caseSensitive := true
  maxMatches := 100
  maxFileBytes := 1048576
  responseBytes := 65536
  deadlineMs := 10000
  scope := none
  validateScopeOnly := none
  read := none
  maxEntries := 100000
  maxDepth := 64

/-- A read of a path with an accent and a pair of surrogates, in a scope with globs and a control
character. -/
def scopedRead : List (List UInt16 × Json) :=
  [(units "pattern", .str (units "a")),
    (units "scope", objectOf [
      ("includeGroups", some (.arr [.arr [.str (units "docs/**"), .str (units "*.md")], .arr []])),
      ("exclude", some (.arr [.str (units "*.l\x01g")])), ("hidden", some (.bool false)),
      ("respectIgnore", some (.bool true))]),
    (units "read", objectOf [("path", some (.str (units "docs/é😀.md"))), ("range", some (rangeJson ⟨0, 1⟩)),
      ("expectedFileSha256", some (.str (List.replicate 64 0x61)))])]

/-- What the client makes of it. -/
def scopedRequest : WorkerRequest :=
  { plainRequest with
    scope := some ⟨[[units "docs/**", units "*.md"], []], [units "*.l\x01g"], false, true⟩
    read := some ⟨units "docs/é😀.md", ⟨0, 1⟩, some (List.replicate 64 0x61)⟩ }

theorem carried_scoped : scopedRequest.uncheckedStrings.length = 4 ∧ Carried scopedRequest 10000 := by
  have haccept : acceptInput (requestId 1) scopedRead = some scopedRequest := by decide +kernel
  have hiff := @carried_iff 1 scopedRead { call := 0, request := scopedRequest, startedAt := 0 } 0
    (by decide) haccept (by decide) (by decide)
  exact ⟨by decide, hiff.mpr ⟨by decide +kernel, by decide +kernel⟩⟩

/-- A read of the path that is one lone surrogate. -/
def loneRead : List (List UInt16 × Json) :=
  [(units "pattern", .str (units "a")),
    (units "read", objectOf [("path", some (.str [0xD800])), ("range", some (rangeJson ⟨0, 1⟩))])]

/-- What the client makes of it. -/
def loneRequest : WorkerRequest :=
  { plainRequest with read := some ⟨[0xD800], ⟨0, 1⟩, none⟩ }

/-- The client accepts and sends a read of a lone surrogate, which the worker cannot decode. -/
theorem accepted_loneRead_not_carried : acceptInput (requestId 1) loneRead = some loneRequest ∧
    ¬ Carried loneRequest 10000 ∧
    receive (requestFrame loneRequest 10000) = .invalid [] := by
  refine ⟨by decide +kernel, fun h => ?_, ?_⟩
  · have hwf := h.wellFormed [0xD800] (by decide)
    exact absurd hwf (by decide)
  · decide +kernel

end JevGrep.Client
