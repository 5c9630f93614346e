/-
# `JevGrep.Service.Trimming` — the byte budget keeps the longest prefix that fits.

`execute` cuts the matches of an exact response that is over its budget by a binary search, and
measures each candidate with the partial coverage and the `BYTE_LIMIT` issue already in place. The size
grows with the prefix, so the search ends at the longest prefix that fits. §1 the search; §2 sizes of
prefixes; §3 the issues and reasons of a cut response; §4 `execute`.
-/
import JevGrep.Lib.Canonical
import JevGrep.Service.Answers

namespace JevGrep.Service

open JevGrep.Lib JevGrep.Lib.Schema JevGrep.Lib.Utf16
open JevGrep.Contracts (JsString)
open JevGrep.Worker (Code QueryKind)
open JevGrep.Client (WorkerHit WorkerSuccess objectOf)
open JevGrep.Workspace (Answer)
open JevGrep.Lib.Canonical (nodup_eraseDups)

/-! ## §1 — the search. -/

/-- **The binary search finds the last length that fits**, when shorter prefixes fit too and the clock
is never late. -/
theorem trim_longest {fits late : Nat → Bool} (hdown : ∀ m n, m ≤ n → fits n = true → fits m = true)
    (hlate : ∀ n, late n = false) (fuel : Nat) : ∀ reading low high, low ≤ high →
      high - low ≤ fuel → ∃ n reading', trim fits late fuel reading low high = some (n, reading') ∧
        low ≤ n ∧ n ≤ high ∧ (n = low ∨ fits n = true) ∧
          ∀ m, n < m → m ≤ high → fits m = false := by
  induction fuel with
  | zero =>
      intro reading low high hle hfuel
      exact ⟨low, reading, rfl, Nat.le_refl _, hle, .inl rfl, fun m hm hmh => by omega⟩
  | succ fuel ih =>
      intro reading low high hle hfuel
      rw [trim]
      split
      · rename_i hlt
        have hmiddle : low < (low + high + 1) / 2 ∧ (low + high + 1) / 2 ≤ high := by omega
        rw [if_neg (by rw [hlate]; exact Bool.false_ne_true)]
        dsimp only
        split
        · -- the middle fits, so nothing below it is longest
          rename_i hfits
          obtain ⟨n, reading', htrim, hlow, hhigh, hn, hmax⟩ :=
            ih (reading + 1) ((low + high + 1) / 2) high hmiddle.2 (by omega)
          refine ⟨n, reading', htrim, by omega, hhigh, .inr ?_, hmax⟩
          rcases hn with rfl | hn
          · exact hfits
          · exact hn
        · -- the middle does not fit, and so nothing from it on
          rename_i hover
          obtain ⟨n, reading', htrim, hlow, hhigh, hn, hmax⟩ :=
            ih (reading + 1) low ((low + high + 1) / 2 - 1) (by omega) (by omega)
          refine ⟨n, reading', htrim, hlow, by omega, hn, fun m hm hmh => ?_⟩
          by_cases hm' : m ≤ (low + high + 1) / 2 - 1
          · exact hmax m hm hm'
          · apply Bool.eq_false_iff.mpr
            intro hfits
            exact hover (hdown _ m (by omega) hfits)
      · exact ⟨low, reading, rfl, Nat.le_refl _, hle, .inl rfl, fun m hm hmh => by omega⟩

/-! ## §2 — sizes of prefixes. -/

theorem sizeItems_append (items more : List Json) :
    Json.sizeItems items ≤ Json.sizeItems (items ++ more) := by
  induction items with
  | nil =>
      cases more with
      | nil => exact Nat.le_refl _
      | cons v more =>
          show 1 ≤ Json.sizeItems (v :: more)
          rw [Json.sizeItems]
          omega
  | cons v items ih =>
      rw [List.cons_append, Json.sizeItems, Json.sizeItems]
      omega

theorem size_arr_append (items more : List Json) :
    Json.size (.arr items) ≤ Json.size (.arr (items ++ more)) := by
  cases items with
  | nil =>
      cases more with
      | nil => exact Nat.le_refl _
      | cons v more =>
          have h := sizeItems_append [] more
          show 2 ≤ Json.size (.arr (v :: more))
          rw [Json.size]
          rw [List.nil_append, Json.sizeItems] at h
          omega
  | cons v items =>
      have h := sizeItems_append items more
      rw [List.cons_append, Json.size, Json.size]
      omega

/-- An object grows with its last member. -/
theorem size_obj_last (members : List (List UInt16 × Json)) (k : List UInt16) {v v' : Json}
    (h : Json.size v ≤ Json.size v') :
    Json.size (.obj (members ++ [(k, v)])) ≤ Json.size (.obj (members ++ [(k, v')])) := by
  have hmembers : ∀ members : List (List UInt16 × Json),
      Json.sizeMembers (members ++ [(k, v)]) ≤ Json.sizeMembers (members ++ [(k, v')]) := by
    intro members
    induction members with
    | nil =>
        show 1 + (Json.escapedBytes k + 2) + 1 + Json.size v + 1
          ≤ 1 + (Json.escapedBytes k + 2) + 1 + Json.size v' + 1
        omega
    | cons m members ih => exact Nat.add_le_add_left ih _
  cases members with
  | nil =>
      show 1 + (Json.escapedBytes k + 2) + 1 + Json.size v + 1
        ≤ 1 + (Json.escapedBytes k + 2) + 1 + Json.size v' + 1
      omega
  | cons m members => exact Nat.add_le_add_left (hmembers members) _

theorem size_objectOf_last (members : List (String × Option Json)) (name : String) {v v' : Json}
    (h : Json.size v ≤ Json.size v') :
    Json.size (objectOf (members ++ [(name, some v)]))
      ≤ Json.size (objectOf (members ++ [(name, some v')])) := by
  rw [objectOf, objectOf, List.filterMap_append, List.filterMap_append]
  exact size_obj_last _ (units name) h

/-- A response grows with its matches. -/
theorem bytes_exact_mono (d : Dates) {id : JsString} {scope : EffectiveScope} {issues : List Issue}
    {startedAt endedAt : Nat} {coverage : ExactCoverage} {fewer more : List ExactMatch}
    (h : Json.size (.arr (fewer.map ExactMatch.json)) ≤ Json.size (.arr (more.map ExactMatch.json))) :
    (Response.ok id scope issues (.exact startedAt endedAt coverage fewer)).bytes d
      ≤ (Response.ok id scope issues (.exact startedAt endedAt coverage more)).bytes d := by
  have hresult : Json.size ((Result.exact startedAt endedAt coverage fewer).json d)
      ≤ Json.size ((Result.exact startedAt endedAt coverage more).json d) :=
    size_objectOf_last [("operation", some (.str (units "exact"))), ("source", _),
      ("coverage", some coverage.json)] "matches" h
  exact size_objectOf_last [("version", some (.nat 1)), ("requestId", some (.str id)),
    ("status", some (.str (units "ok"))), ("scope", some scope.json),
    ("issues", some (.arr (issues.map Issue.json)))] "result" hresult

/-! ## §3 — issues and reasons. -/

/-- The first of every group has a code of its own. -/
theorem nodup_dedupIssues (issues : List Issue) : ((dedupIssues issues).map (·.code)).Nodup := by
  have hfold : ∀ (issues kept : List Issue), (kept.map (·.code)).Nodup →
      ((issues.foldl (fun kept i => if kept.any (·.code == i.code) then kept else kept ++ [i])
        kept).map (·.code)).Nodup := by
    intro issues
    induction issues with
    | nil => exact fun kept h => h
    | cons i issues ih =>
        intro kept h
        rw [List.foldl_cons]
        apply ih
        split
        · exact h
        · rename_i hnew
          rw [List.map_append, List.nodup_append]
          refine ⟨h, List.nodup_cons.mpr ⟨List.not_mem_nil, List.nodup_nil⟩, ?_⟩
          intro code hcode other hother heq
          obtain ⟨j, hj, rfl⟩ := List.mem_map.mp hcode
          obtain rfl := List.mem_singleton.mp hother
          exact hnew (List.any_eq_true.mpr ⟨j, hj, beq_iff_eq.mpr heq⟩)
  exact hfold issues [] List.nodup_nil

/-- The issues of a cut response. -/
def cutIssues (codes : List Code) : List Issue :=
  if (issuesOf codes).any (·.code == .byteLimit) then issuesOf codes
  else issuesOf codes ++ [issue "BYTE_LIMIT"]

/-- Its partial reasons. -/
def cutReasons (codes : List Code) : List PartialReason :=
  (partialReasonsOf (issuesOf codes) ++ [PartialReason.limit]).eraseDups

theorem issue_byteLimit : issue "BYTE_LIMIT" = issueOf .byteLimit := by decide

theorem nodup_cutIssues (codes : List Code) : ((cutIssues codes).map (·.code)).Nodup := by
  have h : ((issuesOf codes).map (·.code)).Nodup := nodup_dedupIssues _
  unfold cutIssues
  split
  · exact h
  · rename_i hnew
    rw [List.map_append, List.nodup_append]
    refine ⟨h, List.nodup_cons.mpr ⟨List.not_mem_nil, List.nodup_nil⟩, ?_⟩
    intro code hcode other hother heq
    obtain ⟨i, hi, rfl⟩ := List.mem_map.mp hcode
    obtain rfl := List.mem_singleton.mp hother
    rw [issue_byteLimit] at heq
    exact hnew (List.any_eq_true.mpr ⟨i, hi, beq_iff_eq.mpr heq⟩)

theorem byteLimit_mem_cutIssues (codes : List Code) : ∃ i ∈ cutIssues codes, i.code = .byteLimit := by
  unfold cutIssues
  split
  · rename_i hany
    obtain ⟨i, hi, hcode⟩ := List.any_eq_true.mp hany
    exact ⟨i, hi, beq_iff_eq.mp hcode⟩
  · refine ⟨issue "BYTE_LIMIT", List.mem_append_right _ List.mem_cons_self, ?_⟩
    rw [issue_byteLimit]
    rfl

theorem mem_cutIssues {codes : List Code} {i : Issue} :
    i ∈ issuesOf codes → i ∈ cutIssues codes := by
  intro h
  unfold cutIssues
  split
  · exact h
  · exact List.mem_append_left _ h

theorem mem_cutReasons {codes : List Code} {reason : PartialReason} :
    reason ∈ cutReasons codes ↔ reason ∈ partialReasonsOf (issuesOf codes) ∨ reason = .limit := by
  rw [cutReasons, List.mem_eraseDups, List.mem_append, List.mem_singleton]

/-! ## §4 — `execute`. -/

section Execute

variable (w : World) (request : Request) (context : Context) (a : Answer) (s : WorkerSuccess)
  (kind : QueryKind)

/-- A longer prefix makes a longer response. -/
theorem bytes_exactResponse_mono {issues : List Issue} {coverage : ExactCoverage} {m n : Nat}
    (hmn : m ≤ n) :
    (exactResponse w request a s kind issues coverage (s.hits.take m)).bytes w.dates
      ≤ (exactResponse w request a s kind issues coverage (s.hits.take n)).bytes w.dates := by
  have hsplit : s.hits.take n = s.hits.take m ++ (s.hits.take n).drop m := by
    have htake : (s.hits.take n).take m = s.hits.take m := by
      rw [List.take_take, Nat.min_eq_left hmn]
    rw [← htake, List.take_append_drop]
  have hsize : ∀ f : WorkerHit → Json, Json.size (.arr ((s.hits.take m).map f))
      ≤ Json.size (.arr ((s.hits.take n).map f)) := by
    intro f
    rw [hsplit, List.map_append]
    exact size_arr_append _ _
  have hhits := hsize (ExactMatch.json ∘ published w a kind)
  rw [← List.map_map, ← List.map_map] at hhits
  exact bytes_exact_mono w.dates hhits

/-- The response of an exact search before the budget is looked at. -/
def fullResponse : Response :=
  exactResponse w request a s kind (issuesOf s.reasons)
    (coverageOf (partialReasonsOf (issuesOf s.reasons))) s.hits

/-- The response with the first `n` matches. -/
def cutResponse (n : Nat) : Response :=
  exactResponse w request a s kind (cutIssues s.reasons) (.incomplete (cutReasons s.reasons))
    (s.hits.take n)

/-- `execute` from an exact success on, in these words. -/
theorem executeExact_eq : executeExact w request context a s kind
    = if (fullResponse w request a s kind).bytes w.dates > context.responseBytes then
        match trim (fun n => (cutResponse w request a s kind n).bytes w.dates ≤ context.responseBytes)
          (late w context) s.hits.length 3 0 s.hits.length with
        | none => fail w request "DEADLINE"
        | some (n, reading) => finish w request context reading (cutResponse w request a s kind n)
      else finish w request context 3 (fullResponse w request a s kind) := rfl

end Execute

/-- No deadline and no cancellation interferes with a call. -/
structure Undisturbed (w : World) (context : Context) : Prop where
  before : w.abortedBefore = false
  after : w.abortedAfter = false
  remaining : 1 ≤ (context.deadlineMs * 1000000 - (w.clock 1 - w.clock 0)) / 1000000
  punctual : ∀ n, late w context n = false

/-- What the end of `execute` makes of a response: the response itself, or an error where
`parseResponse` throws. -/
def checked (w : World) (request : Request) (response : Response) : Option Response :=
  match parseResponse w.dates response request with
  | some validated => some validated
  | none => errorResponse w request "UNAVAILABLE"

section Execute

variable {w : World} {request : Request} {context : Context} {a : Answer} {s : WorkerSuccess}
  {kind : QueryKind}

theorem checked_of_parsed {response validated : Response}
    (h : parseResponse w.dates response request = some validated) :
    checked w request response = some validated := by
  rw [checked, h]

/-- **The longest prefix that fits**, or the error. -/
theorem executeExact_longest (hid : isId request.requestId = true)
    (hpunctual : ∀ n, late w context n = false)
    (hover : context.responseBytes < (fullResponse w request a s kind).bytes w.dates) :
    (context.responseBytes < (cutResponse w request a s kind 0).bytes w.dates ∧
        executeExact w request context a s kind
          = .ok (.error request.requestId (issue "BYTE_LIMIT"))) ∨
      ∃ n ≤ s.hits.length, ∃ reading,
        (cutResponse w request a s kind n).bytes w.dates ≤ context.responseBytes ∧
        (∀ m ≤ s.hits.length,
          (cutResponse w request a s kind m).bytes w.dates ≤ context.responseBytes → m ≤ n) ∧
        executeExact w request context a s kind
          = finish w request context reading (cutResponse w request a s kind n) := by
  have hdown : ∀ m n, m ≤ n →
      decide ((cutResponse w request a s kind n).bytes w.dates ≤ context.responseBytes) = true →
      decide ((cutResponse w request a s kind m).bytes w.dates ≤ context.responseBytes) = true := by
    intro m n hmn hn
    rw [decide_eq_true_eq] at hn ⊢
    exact (bytes_exactResponse_mono w request a s kind hmn).trans hn
  obtain ⟨n, reading, htrim, -, hn, hfits, hmax⟩ := trim_longest hdown hpunctual s.hits.length 3 0
    s.hits.length (Nat.zero_le _) (Nat.le_refl _)
  have hexact : executeExact w request context a s kind
      = finish w request context reading (cutResponse w request a s kind n) := by
    rw [executeExact_eq, if_pos hover, htrim]
  by_cases hcut : (cutResponse w request a s kind n).bytes w.dates ≤ context.responseBytes
  · refine .inr ⟨n, hn, reading, hcut, fun m hm hmfits => ?_, hexact⟩
    -- a longer prefix would have been found
    by_contra hlt
    have hnot := hmax m (Nat.not_le.mp hlt) hm
    rw [decide_eq_false_iff_not] at hnot
    exact hnot hmfits
  · refine .inl ?_
    have hzero : n = 0 := by
      rcases hfits with rfl | hfits
      · rfl
      · exact absurd (decide_eq_true_eq.mp hfits) hcut
    subst hzero
    refine ⟨Nat.not_le.mp hcut, ?_⟩
    rw [hexact, finish, if_pos (Nat.not_le.mp hcut), fail, errorResponse_eq_some hid]

theorem finish_checked (hpunctual : ∀ n, late w context n = false) {response : Response}
    {reading : Nat} (hfits : response.bytes w.dates ≤ context.responseBytes)
    {caps context₀ : Context} {input contextInput : Json} (hrequest : parseRequest input = some request)
    (hcontext : contextSchema contextInput = some context₀) (hlower : context₀.lower caps = context)
    (hsignal : w.abortedBefore = false)
    (hoperation : ∀ question anchors, request.operation ≠ .discover question anchors)
    (hattempt : attempt w request context = finish w request context reading response) :
    execute w caps input contextInput = checked w request response := by
  subst hlower
  cases hparse : parseResponse w.dates response request with
  | some validated =>
      have hfinish : finish w request (context₀.lower caps) reading response = .ok validated := by
        rw [finish, if_neg (Nat.not_lt.mpr hfits), hparse]
        dsimp only
        rw [if_neg (by rw [hpunctual]; exact Bool.false_ne_true)]
      rw [checked, hparse]
      exact execute_of_attempt hrequest hcontext hsignal hoperation (hattempt.trans hfinish)
  | none =>
      have hfinish : finish w request (context₀.lower caps) reading response = .error .other := by
        rw [finish, if_neg (Nat.not_lt.mpr hfits), hparse]
      rw [checked, hparse]
      unfold execute
      rw [hrequest, hcontext]
      dsimp only
      rw [if_neg (by rw [hsignal]; exact Bool.false_ne_true)]
      split
      · rename_i question anchors hdiscover
        exact absurd hdiscover (hoperation question anchors)
      · rw [hattempt, hfinish]

/-- **Trimming keeps the most evidence that fits.** An undisturbed exact search that the worker answers
with `s` is published whole when it fits; otherwise with the longest prefix of its matches that fits
together with the reason `limit` and the `BYTE_LIMIT` issue; and when not even the empty prefix fits, it
is answered with the error. -/
theorem execute_trims {caps context₀ : Context} {input contextInput : Json} {query : JsString}
    {caseSensitive : Bool} {maxMatches : Nat} (hrequest : parseRequest input = some request)
    (hoperation : request.operation = .exact kind query caseSensitive maxMatches)
    (hcontext : contextSchema contextInput = some context₀)
    (hundisturbed : Undisturbed w (context₀.lower caps)) (hsearch : ∀ v, w.search v = .answered a)
    (hresult : a.result = .ok s) :
    ((fullResponse w request a s kind).bytes w.dates ≤ (context₀.lower caps).responseBytes →
      execute w caps input contextInput = checked w request (fullResponse w request a s kind)) ∧
    ((context₀.lower caps).responseBytes < (fullResponse w request a s kind).bytes w.dates →
      (cutResponse w request a s kind 0).bytes w.dates ≤ (context₀.lower caps).responseBytes →
      ∃ n ≤ s.hits.length,
        (cutResponse w request a s kind n).bytes w.dates ≤ (context₀.lower caps).responseBytes ∧
        (∀ m ≤ s.hits.length, (cutResponse w request a s kind m).bytes w.dates
          ≤ (context₀.lower caps).responseBytes → m ≤ n) ∧
        execute w caps input contextInput = checked w request (cutResponse w request a s kind n)) ∧
    ((context₀.lower caps).responseBytes < (fullResponse w request a s kind).bytes w.dates →
      (context₀.lower caps).responseBytes < (cutResponse w request a s kind 0).bytes w.dates →
      execute w caps input contextInput
        = some (.error request.requestId (issueOf .byteLimit))) ∧
    (∀ n, ∃ startedAt endedAt, cutResponse w request a s kind n
      = .ok request.requestId (scope a s) (cutIssues s.reasons)
        (.exact startedAt endedAt (.incomplete (cutReasons s.reasons))
          ((s.hits.map (published w a kind)).take n))) ∧
    ((issuesOf s.reasons).map (·.code)).Nodup ∧ (partialReasonsOf (issuesOf s.reasons)).Nodup ∧
    ((cutIssues s.reasons).map (·.code)).Nodup ∧ (cutReasons s.reasons).Nodup ∧
    (∀ i, i ∈ cutIssues s.reasons → i ∈ issuesOf s.reasons ∨ i = issueOf .byteLimit) ∧
    (∀ i, i ∈ issuesOf s.reasons → i ∈ cutIssues s.reasons) ∧
    (∃ i ∈ cutIssues s.reasons, i.code = .byteLimit) ∧
    ∀ reason, reason ∈ cutReasons s.reasons ↔
      reason ∈ partialReasonsOf (issuesOf s.reasons) ∨ reason = .limit := by
  have hid := (requestId_of_parsed hrequest).1
  have hexact : ∀ question anchors, request.operation ≠ .discover question anchors := by
    intro question anchors h
    rw [hoperation] at h
    cases h
  have hattempt : attempt w request (context₀.lower caps)
      = executeExact w request (context₀.lower caps) a s kind :=
    attempt_of_exact hundisturbed.remaining hsearch hundisturbed.after (hundisturbed.punctual 2)
      hresult hoperation
  refine ⟨fun hfits => ?_, fun hover hempty => ?_, fun hover hempty => ?_, fun n => ?_,
    nodup_dedupIssues _, nodup_eraseDups _, nodup_cutIssues _, nodup_eraseDups _, fun i hi => ?_,
    fun i => mem_cutIssues, byteLimit_mem_cutIssues _, fun reason => mem_cutReasons⟩
  · have hfinish : attempt w request (context₀.lower caps)
        = finish w request (context₀.lower caps) 3 (fullResponse w request a s kind) := by
      rw [hattempt, executeExact_eq, if_neg (Nat.not_lt.mpr hfits)]
    exact finish_checked hundisturbed.punctual hfits hrequest hcontext rfl hundisturbed.before hexact
      hfinish
  · -- the bisection ends at the longest start that fits
    rcases executeExact_longest hid hundisturbed.punctual hover with ⟨hnone, -⟩ | h
    · exact absurd hempty (Nat.not_le.mpr hnone)
    · obtain ⟨n, hn, reading, hfits, hmax, heq⟩ := h
      refine ⟨n, hn, hfits, hmax, ?_⟩
      exact finish_checked hundisturbed.punctual hfits hrequest hcontext rfl hundisturbed.before
        hexact (hattempt.trans heq)
  · -- not even the empty start fits
    rcases executeExact_longest hid hundisturbed.punctual hover with ⟨-, heq⟩ | h
    · rw [← issue_byteLimit]
      exact execute_of_attempt hrequest hcontext hundisturbed.before hexact (hattempt.trans heq)
    · obtain ⟨n, hn, reading, hfits, -⟩ := h
      have hle : (cutResponse w request a s kind 0).bytes w.dates
          ≤ (cutResponse w request a s kind n).bytes w.dates :=
        bytes_exactResponse_mono w request a s kind (Nat.zero_le n)
      exact absurd (hle.trans hfits) (Nat.not_le.mpr hempty)
  · refine ⟨w.date 0, max (w.date 0) (w.date 1), ?_⟩
    rw [← List.map_take]
    rfl
  · unfold cutIssues at hi
    split at hi
    · exact .inl hi
    · rcases List.mem_append.mp hi with hi | hi
      · exact .inl hi
      · exact .inr ((List.mem_singleton.mp hi).trans issue_byteLimit)

end Execute

/-- The smallest budget a caller can ask for. -/
def smallContext : Json := objectOf [("responseBytes", some (.nat 2048))]

/-- The response to the bare input with that success, whole and behind its first matches. -/
def wholeThree : Response :=
  fullResponse (bareWorld threeHits) bareParsed (bareAnswer threeHits) threeHits .literal

/-- Its response, cut at `n` matches. -/
def cutThree (n : Nat) : Response :=
  cutResponse (bareWorld threeHits) bareParsed (bareAnswer threeHits) threeHits .literal n

/-- With three matches it is too long for 2048 bytes, and is published with two of them. -/
theorem execute_trims_threeHits : threeHits.hits.length = 3 ∧
    2048 < wholeThree.bytes (bareWorld threeHits).dates ∧
    execute (bareWorld threeHits) ⟨30000, 1048576⟩ bareInput smallContext = some (cutThree 2) := by
  have hhits : threeHits.hits.length = 3 := by decide +kernel
  -- one evaluation for all sizes: the digests are computed once
  obtain ⟨hwhole, hempty, htwo, hthree, hparse⟩ : 2048 < wholeThree.bytes (bareWorld threeHits).dates ∧
      (cutThree 0).bytes (bareWorld threeHits).dates ≤ 2048 ∧
      (cutThree 2).bytes (bareWorld threeHits).dates ≤ 2048 ∧
      2048 < (cutThree 3).bytes (bareWorld threeHits).dates ∧
      parseResponse (bareWorld threeHits).dates (cutThree 2) bareParsed = some (cutThree 2) := by
    decide +kernel
  have hundisturbed : Undisturbed (bareWorld threeHits) (Context.lower ⟨10000, 2048⟩ ⟨30000, 1048576⟩) := by
    have hremaining : (1 : Int) ≤ ((10000 : Nat) * 1000000 - (0 - 0)) / 1000000 := by decide
    have hlate : decide (((10000 : Nat) : Int) * 1000000 ≤ 0 - 0) = false := by decide
    exact ⟨rfl, rfl, hremaining, fun _ => hlate⟩
  have hcontext : contextSchema smallContext = some ⟨10000, 2048⟩ := by decide
  have hsearch : ∀ v, (bareWorld threeHits).search v = .answered (bareAnswer threeHits) := fun _ => rfl
  obtain ⟨-, hcut, -⟩ := execute_trims parseRequest_bare rfl hcontext
    hundisturbed hsearch rfl
  obtain ⟨n, hn, hfits, hmost, hexecute⟩ := hcut hwhole hempty
  have hlow : 2 ≤ n := hmost 2 (by rw [hhits]; decide) htwo
  have hhigh : n ≠ 3 := by
    rintro rfl
    exact absurd hfits (Nat.not_le.mpr hthree)
  obtain rfl : n = 2 := by omega
  exact ⟨hhits, hwhole, hexecute.trans (checked_of_parsed hparse)⟩

end JevGrep.Service
