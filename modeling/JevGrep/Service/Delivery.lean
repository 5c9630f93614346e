/-
# `JevGrep.Service.Delivery` — a worker's success is never lost in the envelope.

A request goes through the registry and the client to the worker, and its success comes back into the
public envelope, which `parseResponse` checks once more. Three vocabularies of codes and two validators
meet there. The walk leaves eight codes behind, every one of them becomes an issue that is not fatal and
a partial reason, and every string in the envelope was checked or computed on its way.
§1 the policies a registry holds; §2 what the registry and the client read of a request; §3 evidence and
scope; §4 issues and coverage; §5 the responses that are built; §6 `execute`.
-/
import JevGrep.Service.Source
import JevGrep.Service.Trimming
import JevGrep.Workspace.Grammar
import JevGrep.Workspace.Lifecycle

namespace JevGrep.Workspace.Registry

open JevGrep.Lib JevGrep.Lib.Schema JevGrep.Lib.Transition
open JevGrep.Contracts (JsString)

/-! ## §1 — the policies a registry holds. -/

/-- No `register` call has another policy than before. -/
def Keeps (r r' : Registry) : Prop :=
  ∀ task ∈ r'.tasks, ∃ before ∈ r.tasks, before.policy = task.policy

/-- Every policy was compiled from an input, and an entry has the hash of its policy. -/
structure Compiled (host : Host) (r : Registry) : Prop where
  tasks : ∀ task ∈ r.tasks, ∃ input, createPolicy input = some task.policy
  entries : ∀ p ∈ r.entries, (∃ input, createPolicy input = some p.2.registration.policy) ∧
    p.2.registration.policyHash = policyHash host.sha256 p.2.registration.policy

section Runs

variable {host : Host} {r r' r'' : Registry}

theorem Keeps.refl (r : Registry) : r.Keeps r := fun task h => ⟨task, h, rfl⟩

theorem Keeps.of_eq (h : r'.tasks = r.tasks) : r.Keeps r' := by
  intro task htask
  rw [h] at htask
  exact ⟨task, htask, rfl⟩

theorem keeps_setPhase {q : Registry} (hq : q.tasks = r.tasks) (t : Nat) (phase : Phase) :
    r.Keeps (q.setPhase t phase) := by
  intro task htask
  obtain ⟨v, hv⟩ := List.getElem?_of_mem htask
  rw [getElem?_modified (r := q) rfl, hq, Option.map_eq_some_iff] at hv
  obtain ⟨old, hold, rfl⟩ := hv
  refine ⟨old, List.mem_of_getElem? hold, ?_⟩
  split <;> rfl

theorem keeps_abandon (t : Nat) (lease : Option LeaseId) (worker : Option WorkerId)
    (code : WorkspaceErrorCode) : r.Keeps (r.abandon host t lease worker code) := by
  apply keeps_setPhase
  cases worker <;> cases lease <;> rfl

theorem keeps_searchWorker (w : WorkerId) (input : List (List UInt16 × Json))
    (signal : Option Client.SignalId) (t : Nat) (phase : Phase) :
    r.Keeps ((r.searchWorker host w input signal).2.setPhase t phase) :=
  keeps_setPhase (searchWorker_frame w input signal).1 t phase

theorem keeps_publish (t : Nat) (policy : Policy) (l : LeaseId) (w : WorkerId) :
    r.Keeps (r.publish host t policy l w) := by
  rw [Registry.publish]
  exact keeps_setPhase rfl t _

theorem keeps_resume (t : Nat) : r.Keeps (r.resume host t) := by
  rw [Registry.resume]
  cases r.tasks[t]? with
  | none => exact .refl r
  | some task =>
      dsimp only
      split
      · split
        · exact .refl r
        · exact keeps_searchWorker _ _ none t _
        · exact keeps_abandon t _ _ _
      · split
        · exact .refl r
        · split
          · exact keeps_abandon t _ _ _
          · exact keeps_publish t _ _ _
        · exact keeps_abandon t _ _ _
        · exact keeps_abandon t _ _ _
      · exact .refl r

theorem keeps_register (absoluteRoot : Json) (policyInput : Option Json) :
    r.Keeps (r.register absoluteRoot policyInput).2 ∨ ∃ input task, createPolicy input = some task.policy ∧
      (r.register absoluteRoot policyInput).2.tasks = r.tasks ++ [task] := by
  unfold Registry.register
  split
  · exact .inl (.refl r)
  · split
    · exact .inl (.refl r)
    · split
      · exact .inl (.refl r)
      · rename_i policy hpolicy
        split
        · exact .inl (.refl r)
        · exact .inr ⟨_, ⟨policy, .resolving⟩, hpolicy, rfl⟩

theorem keeps_realpath (t : Nat) (canonical : Option JsString) : r.Keeps (r.onRealpath host t canonical) := by
  unfold Registry.onRealpath
  split
  · exact keeps_setPhase rfl t _
  · exact keeps_abandon t none none _
  · exact .refl r

theorem keeps_opened (t : Nat) (lease : Option Lease) : r.Keeps (r.onOpen host t lease) := by
  unfold Registry.onOpen
  split
  · exact keeps_setPhase rfl t _
  · exact keeps_abandon t none none _
  · exact .refl r

theorem keeps_stat (t : Nat) (ok : Bool) : r.Keeps (r.onStat host t ok) := by
  unfold Registry.onStat
  split
  · split
    · exact .refl r
    · split
      · exact keeps_abandon t _ none _
      · split
        · exact keeps_abandon t _ none _
        · split
          · exact keeps_abandon t _ none _
          · exact keeps_setPhase rfl t _
  · exact .refl r

/-- The policy of a `register` call is compiled when the call is let through, and never changes. -/
theorem keeps_step (event : Event) : r.Keeps (r.step host event) ∨
    ∃ input task, createPolicy input = some task.policy ∧
      (r.step host event).tasks = r.tasks ++ [task] := by
  cases event with
  | register absoluteRoot policyInput => exact keeps_register absoluteRoot policyInput
  | realpath t canonical => exact .inl (keeps_realpath t canonical)
  | opened t lease => exact .inl (keeps_opened t lease)
  | stat t ok => exact .inl (keeps_stat t ok)
  | resume t => exact .inl (keeps_resume t)
  | leaseClosed t ok =>
      refine .inl ?_
      show r.Keeps (r.onLeaseClosed t ok)
      unfold Registry.onLeaseClosed
      split
      · exact keeps_setPhase rfl t _
      · exact .refl r
  | worker w e =>
      refine .inl (.of_eq ?_)
      rw [Registry.step]
      split <;> rfl
  | search input signal =>
      refine .inl (.of_eq ?_)
      rw [Registry.step, Registry.search]
      split
      · rfl
      · split
        · rfl
        · split
          · rfl
          · exact (searchWorker_frame _ _ signal).1
  | searched n =>
      refine .inl (.of_eq ?_)
      rw [Registry.step, Registry.onSearched]
      split
      · rfl
      · split
        · rfl
        · split <;> rfl
  | unregister workspaceId =>
      refine .inl (.of_eq ?_)
      rw [Registry.step, Registry.unregister]
      split <;> rfl
  | close =>
      refine .inl (.of_eq ?_)
      exact (@shutAll_frame host r.entries { r with closed := true }).1

theorem Compiled.step (h : Compiled host r) (event : Event) : Compiled host (r.step host event) where
  tasks task htask := by
    rcases @keeps_step host r event with hkeeps | ⟨input, fresh, hfresh, heq⟩
    · obtain ⟨before, hbefore, hpolicy⟩ := hkeeps task htask
      rw [← hpolicy]
      exact h.tasks before hbefore
    · rw [heq] at htask
      rcases List.mem_append.mp htask with htask | htask
      · exact h.tasks task htask
      · rw [List.mem_singleton.mp htask]
        exact ⟨input, hfresh⟩
  entries p hp := by
    cases @maps_step host r event with
    | idle hidle =>
        rw [hidle.entries] at hp
        exact h.entries p hp
    | published t task l w promise ht _ heq =>
        rw [heq] at hp
        rcases mem_set hp with hp | rfl
        · exact h.entries p hp
        · exact ⟨h.tasks task (List.mem_of_getElem? ht), rfl⟩
    | unregistered q _ _ heq =>
        rw [heq] at hp
        exact h.entries p (List.mem_filter.mp hp).1
    | closed _ heq =>
        rw [heq] at hp
        cases hp

/-- **Every registered policy is a compiled one**, with its own hash. -/
theorem compiled_after (host : Host) (events : List Event) :
    Compiled host (Registry.after host events) := by
  apply run_invariant
  · constructor
    · intro task htask
      cases htask
    · intro p hp
      cases hp
  · exact fun event r h => h.step event

end Runs

end JevGrep.Workspace.Registry

namespace JevGrep.Service

open JevGrep.Lib JevGrep.Lib.Schema
open JevGrep.Lib.Canonical (nodup_eraseDups)
open JevGrep.Lib.Utf16 (encode byteLength isWellFormed utf8Len)
open JevGrep.Contracts (JsString pathSchema)
open JevGrep.Worker (Bytes Code Engine Hit QueryKind Range Success WellCut isText fromSlice)
open JevGrep.Client (WorkerHit WorkerRead WorkerRequest WorkerSuccess acceptInput isDigest objectOf
  rangeJson rangeSchema requestBody requestId workerReadSchema required_eq_some optional_eq_some)
open JevGrep.Workspace (Answer Host Narrow Patterns Policy Registry SearchRequest Search createPolicy
  fingerprint hexDigest isPattern narrowSchema withDefault withDefault_some)

/-! ## §2 — what the registry and the client read of a request. -/

/-- The digest that a read asks for. -/
def ReadOperation.expected : ReadOperation → Option JsString
  | .verified digest => some digest
  | .fresh => none

/-- The members of an object. -/
def membersOf : Json → List (List UInt16 × Json)
  | .obj members => members
  | _ => []

theorem membersOf_strict {names : List String} {v : Json} {members : List (List UInt16 × Json)}
    (h : strictObject names v = some members) : membersOf v = members := by
  rw [members_of_strictObject h]
  rfl

theorem required_of_lookup {α : Type} {members : List (List UInt16 × Json)} {name : String} {v : Json}
    {read : Json → Option α} {a : α} (hlookup : lookup members name = some v)
    (h : required members name read = some a) : read v = some a := by
  rw [required, hlookup] at h
  exact h

theorem optional_of_lookup {α : Type} {members : List (List UInt16 × Json)} {name : String}
    {read : Json → Option α} {a : Option α} (h : optional members name read = some a) :
    (lookup members name = none ∧ a = none) ∨
      ∃ v b, lookup members name = some v ∧ read v = some b ∧ a = some b := by
  unfold Schema.optional at h
  split at h
  · rename_i hnone
    exact .inl ⟨hnone, (Option.some.inj h).symm⟩
  · rename_i v hv
    obtain ⟨b, hb, hab⟩ := Option.map_eq_some_iff.mp h
    exact .inr ⟨v, b, hv, hb, hab.symm⟩

theorem int_written {least most n m : Nat} (h : int least most (.nat n) = some m) : m = n := by
  rw [int] at h
  split at h
  · exact (Option.some.inj h).symm
  · cases h

theorem string_written {s t : JsString} {p : JsString → Bool}
    (h : (string (.str s)).filter p = some t) : t = s :=
  (Option.some.inj (Option.filter_eq_some_iff.mp h).1).symm

theorem rangeSchema_written {range range' : Range} (h : rangeSchema (rangeJson range) = some range') :
    range' = range := by
  obtain ⟨members, hmembers, h⟩ := bind_some h
  obtain ⟨start, hstart, h⟩ := bind_some h
  obtain ⟨stop, hstop, h⟩ := bind_some h
  obtain rfl := Option.some.inj h
  obtain rfl := membersOf_strict hmembers
  have h₁ : lookup (membersOf (rangeJson range)) "start" = some (.nat range.start) := by
    simp [membersOf, rangeJson, objectOf, lookup_cons, lookup_nil, units_injective.eq_iff]
  have h₂ : lookup (membersOf (rangeJson range)) "end" = some (.nat range.stop) := by
    simp [membersOf, rangeJson, objectOf, lookup_cons, lookup_nil, units_injective.eq_iff]
  rw [int_written (required_of_lookup h₁ hstart), int_written (required_of_lookup h₂ hstop)]

/-- A read is read back. -/
theorem workerReadSchema_written {q q' : WorkerRead} (h : workerReadSchema q.json = some q') : q' = q := by
  obtain ⟨members, hmembers, h⟩ := bind_some h
  obtain ⟨path, hpath, h⟩ := bind_some h
  obtain ⟨range, hrange, h⟩ := bind_some h
  obtain ⟨digest, hdigest, h⟩ := bind_some h
  obtain rfl := Option.some.inj h
  obtain rfl := membersOf_strict hmembers
  have h₁ : lookup (membersOf q.json) "path" = some (.str q.path) := by
    cases hd : q.expectedFileSha256 <;>
      simp [membersOf, WorkerRead.json, objectOf, lookup_cons, lookup_nil, units_injective.eq_iff, hd]
  have h₂ : lookup (membersOf q.json) "range" = some (rangeJson q.range) := by
    cases hd : q.expectedFileSha256 <;>
      simp [membersOf, WorkerRead.json, objectOf, lookup_cons, lookup_nil, units_injective.eq_iff, hd]
  have h₃ : lookup (membersOf q.json) "expectedFileSha256" = q.expectedFileSha256.map .str := by
    cases hd : q.expectedFileSha256 <;>
      simp [membersOf, WorkerRead.json, objectOf, lookup_cons, lookup_nil, units_injective.eq_iff, hd]
  have hp : path = q.path := string_written (required_of_lookup h₁ hpath)
  have hr : range = q.range := rangeSchema_written (required_of_lookup h₂ hrange)
  have hd : digest = q.expectedFileSha256 := by
    rcases optional_of_lookup hdigest with ⟨hnone, rfl⟩ | ⟨v, b, hv, hb, rfl⟩
    · rw [h₃, Option.map_eq_none_iff] at hnone
      exact hnone.symm
    · rw [h₃, Option.map_eq_some_iff] at hv
      obtain ⟨s, hs, rfl⟩ := hv
      rw [hs, string_written hb]
  rw [hp, hr, hd]

/-- What the registry has read of a request. -/
structure ReadAs (request : Request) (r : SearchRequest) : Prop where
  workspaceId : r.workspaceId = request.workspaceId
  scopePolicyId : r.scopePolicyId = request.scopePolicyId
  exact : ∀ kind query caseSensitive maxMatches,
    request.operation = .exact kind query caseSensitive maxMatches →
      r.read = none ∧ r.maxMatches = maxMatches
  read : ∀ operation path range byteBudget,
    request.operation = .read operation path range byteBudget →
      r.read = some ⟨path, range, operation.expected⟩
  narrow : ∀ narrow, r.narrow = some narrow → ∃ v, narrowSchema v = some narrow
  /-- A discovery has no pattern to search for. -/
  searched : ∀ question anchors, request.operation ≠ .discover question anchors

/-- **The registry reads the request that was accepted.** -/
theorem readAs_of_searchInput {host : Host} {request : Request} {remaining responseBytes : Nat}
    {r : SearchRequest}
    (h : Registry.searchSchema host (searchInput request remaining responseBytes) = some r) :
    ReadAs request r := by
  obtain ⟨members, hmembers, h⟩ := bind_some h
  obtain ⟨workspaceId, hworkspace, h⟩ := bind_some h
  obtain ⟨scopePolicyId, hpolicy, h⟩ := bind_some h
  obtain ⟨pattern, hpattern, h⟩ := bind_some h
  obtain ⟨kind, -, h⟩ := bind_some h
  obtain ⟨caseSensitive, -, h⟩ := bind_some h
  obtain ⟨maxMatches, hmatches, h⟩ := bind_some h
  obtain ⟨deadlineMs, -, h⟩ := bind_some h
  obtain ⟨read, hread, h⟩ := bind_some h
  obtain ⟨bytes, -, h⟩ := bind_some h
  obtain ⟨narrow, hnarrow, h⟩ := bind_some h
  obtain rfl := Option.some.inj h
  obtain rfl := membersOf_strict hmembers
  have hids : lookup (membersOf (searchInput request remaining responseBytes)) "workspaceId"
        = some (.str request.workspaceId) ∧
      lookup (membersOf (searchInput request remaining responseBytes)) "scopePolicyId"
        = some (.str request.scopePolicyId) := by
    unfold searchInput
    cases request.operation <;> cases request.narrow <;>
      simp [membersOf, objectOf, lookup_cons, lookup_nil, units_injective.eq_iff]
  refine ⟨string_written (required_of_lookup hids.1 hworkspace),
    string_written (required_of_lookup hids.2 hpolicy), ?_, ?_, ?_, ?_⟩
  · intro kind query caseSensitive most hoperation
    have hlookups : lookup (membersOf (searchInput request remaining responseBytes)) "read" = none ∧
        lookup (membersOf (searchInput request remaining responseBytes)) "maxMatches"
          = some (.nat most) := by
      unfold searchInput
      rw [hoperation]
      cases request.narrow <;>
        simp [membersOf, objectOf, lookup_cons, lookup_nil, units_injective.eq_iff]
    constructor
    · rcases optional_of_lookup hread with ⟨-, hnone⟩ | ⟨v, b, hv, -⟩
      · exact hnone
      · rw [hlookups.1] at hv
        cases hv
    · obtain ⟨found, hfound, rfl⟩ := Option.map_eq_some_iff.mp hmatches
      rcases optional_of_lookup hfound with ⟨hnone, -⟩ | ⟨v, b, hv, hb, rfl⟩
      · rw [hlookups.2] at hnone
        cases hnone
      · rw [hlookups.2] at hv
        obtain rfl := Option.some.inj hv
        exact int_written hb
  · -- a read is handed on as it is
    intro operation path range byteBudget hoperation
    have hlookup : lookup (membersOf (searchInput request remaining responseBytes)) "read"
        = some (WorkerRead.json ⟨path, range, operation.expected⟩) := by
      unfold searchInput
      rw [hoperation]
      cases operation <;> cases request.narrow <;>
        simp [membersOf, objectOf, lookup_cons, lookup_nil, units_injective.eq_iff, WorkerRead.json,
          ReadOperation.expected]
    rcases optional_of_lookup hread with ⟨hnone, -⟩ | ⟨v, b, hv, hb, rfl⟩
    · rw [hlookup] at hnone
      cases hnone
    · rw [hlookup] at hv
      obtain rfl := Option.some.inj hv
      show some b = _
      rw [workerReadSchema_written hb]
  · rintro n rfl
    exact optional_eq_some hnarrow
  · -- a discovery has no pattern, which the registry requires
    intro question anchors hoperation
    have hlookup : lookup (membersOf (searchInput request remaining responseBytes)) "pattern" = none := by
      unfold searchInput
      rw [hoperation]
      cases request.narrow <;>
        simp [membersOf, objectOf, lookup_cons, lookup_nil, units_injective.eq_iff]
    rw [required, hlookup] at hpattern
    cases hpattern

/-- The client reads the registry's input. -/
theorem sent_of_acceptInput {id : JsString} {policy : Policy} {r : SearchRequest} {sent : WorkerRequest}
    (h : acceptInput id (Registry.searchInput policy r) = some sent) :
    sent.read = r.read ∧ sent.maxMatches = r.maxMatches := by
  obtain ⟨hschema, -⟩ := Option.filter_eq_some_iff.mp h
  obtain ⟨members, hmembers, h⟩ := bind_some hschema
  obtain ⟨pattern, -, h⟩ := bind_some h
  obtain ⟨kind, -, h⟩ := bind_some h
  obtain ⟨caseSensitive, -, h⟩ := bind_some h
  obtain ⟨maxMatches, hmatches, h⟩ := bind_some h
  obtain ⟨maxFileBytes, -, h⟩ := bind_some h
  obtain ⟨responseBytes, -, h⟩ := bind_some h
  obtain ⟨deadlineMs, -, h⟩ := bind_some h
  obtain ⟨scope, -, h⟩ := bind_some h
  obtain ⟨validate, -, h⟩ := bind_some h
  obtain ⟨read, hread, h⟩ := bind_some h
  obtain ⟨maxEntries, -, h⟩ := bind_some h
  obtain ⟨maxDepth, -, h⟩ := bind_some h
  obtain rfl := Option.some.inj h
  obtain rfl := membersOf_strict hmembers
  have hlookups : lookup (membersOf (.obj (Client.searchDefaults ++ Registry.searchInput policy r))) "read"
        = r.read.map WorkerRead.json ∧
      lookup (membersOf (.obj (Client.searchDefaults ++ Registry.searchInput policy r))) "maxMatches"
        = some (.nat r.maxMatches) := by
    cases hr : r.read <;>
      simp [membersOf, Client.searchDefaults, Registry.searchInput, lookup_cons, lookup_nil,
        units_injective.eq_iff, hr]
  refine ⟨?_, int_written (required_of_lookup hlookups.2 hmatches)⟩
  rcases optional_of_lookup hread with ⟨hnone, rfl⟩ | ⟨v, q, hv, hq, rfl⟩
  · rw [hlookups.1, Option.map_eq_none_iff] at hnone
    exact hnone.symm
  · rw [hlookups.1, Option.map_eq_some_iff] at hv
    obtain ⟨asked, hasked, rfl⟩ := hv
    rw [hasked, ← workerReadSchema_written hq]

/-! ## §3 — evidence and scope. -/

/-- A digest is a public id. -/
theorem isId_of_isDigest {s : JsString} (h : isDigest s = true) : isId s = true := by
  rw [isDigest, Bool.and_eq_true, beq_iff_eq, List.all_eq_true] at h
  obtain ⟨hlength, hall⟩ := h
  have halphanumeric : ∀ u ∈ s, ((decide (0x61 ≤ u.toNat) && decide (u.toNat ≤ 0x7a)) = true ∨
      (decide (0x30 ≤ u.toNat) && decide (u.toNat ≤ 0x39)) = true) := by
    intro u hu
    have hdigit := hall u hu
    simp only [Bool.or_eq_true, Bool.and_eq_true, decide_eq_true_eq] at hdigit ⊢
    omega
  cases s with
  | nil => cases hlength
  | cons u rest =>
    have hhead := halphanumeric u List.mem_cons_self
    simp only [isId, Bool.and_eq_true, decide_eq_true_eq, List.all_eq_true, Bool.or_eq_true,
      List.head?_cons, Option.any_some, hlength]
    refine ⟨⟨⟨by decide, by decide⟩, ?_⟩, fun x hx => ?_⟩
    · rcases hhead with h | h
      · exact .inl (.inr (by simpa using h))
      · exact .inr (by simpa using h)
    · rcases halphanumeric x hx with h | h
      · exact .inl (.inl (.inl (.inl (.inr (by simpa using h)))))
      · exact .inl (.inl (.inl (.inr (by simpa using h))))

/-- A fingerprint has the form of a digest. -/
theorem isDigest_fingerprint {sha256 : Bytes → Bytes} (h : ∀ b, (sha256 b).length = 32) (v : Json) :
    isDigest (fingerprint sha256 v) = true := Client.isDigest_hex (h _)

section Hits

variable {engine : Engine} {bytes : Bytes} {hit : Hit} {id : JsString}

theorem evidenceSchema_ofHit (hsha : ∀ b, (engine.sha256 b).length = 32) (hid : isId id = true)
    (h : WellCut engine bytes hit) (htext : isText bytes = true) (hlen : bytes.length ≤ 16777216) :
    evidenceSchema (.ofHit id hit) = true := by
  have hb := Client.inBounds_of_wellCut h htext hlen
  have hmax : 16777216 ≤ MAX_SAFE_INTEGER := by decide
  have hrange := hb.range
  have hexcerpt := hb.excerpt
  have hdigest : isDigest (encode hit.fileSha256) = true := by
    rw [h.digest]
    exact Client.isDigest_hex (hsha bytes)
  have htextLength : (encode hit.excerpt.text).length ≤ 4096 :=
    (Utf16.length_encode_le _).trans (hb.text.trans_le hb.short)
  show (isId id && pathSchema (encode hit.path) && isDigest (encode hit.fileSha256)
    && rangeShape hit.range && rangeShape hit.excerpt.range
    && decide ((encode hit.excerpt.text).length ≤ 4096)) = true
  have hshapes : rangeShape hit.range = true ∧ rangeShape hit.excerpt.range = true := by
    simp only [rangeShape, isCount, Bool.and_eq_true, decide_eq_true_eq]
    omega
  rw [hid, Client.pathSchema_of_validPath h.path, hdigest, hshapes.1, hshapes.2,
    decide_eq_true htextLength]
  rfl

end Hits

theorem boundedText_of_isPattern {p : JsString} (h : isPattern p = true) :
    boundedText 1 1024 p = true ∧ byteText p 1024 = true := by
  simp only [isPattern, Bool.and_eq_true, decide_eq_true_eq] at h
  simp only [boundedText, byteText, Bool.and_eq_true, decide_eq_true_eq]
  exact ⟨⟨h.1.1.1.1.1, h.1.1.1.1.2⟩, h.1.1.1.2, h.1.1.2⟩

theorem all_boundedText {most : Nat} {items : List JsString} (h : Patterns most items) :
    items.all (boundedText 1 1024) = true :=
  List.all_eq_true.mpr fun p hp => (boundedText_of_isPattern (h.each p hp)).1

/-- What an answer of the registry carries for an accepted request. -/
structure Authorized (request : Request) (a : Answer) : Prop where
  workspaceId : a.workspaceId = request.workspaceId
  scopePolicyId : a.scopePolicyId = request.scopePolicyId
  ids : isId request.workspaceId = true ∧ isId request.scopePolicyId = true
  policyHash : isDigest a.policyHash = true
  effectivePolicyHash : isDigest a.effectivePolicyHash = true
  includes : Patterns 64 a.policy.includes
  groups : a.scope.includeGroups.length ≤ 2 ∧ ∀ g ∈ a.scope.includeGroups, Patterns 64 g
  exclude : Patterns 128 a.scope.exclude
  maxFileBytes : 1 ≤ a.policy.maxFileBytes ∧ a.policy.maxFileBytes ≤ 16777216

theorem maxFileBytes_of_createPolicy {input : Json} {policy : Policy}
    (h : createPolicy input = some policy) : 1 ≤ policy.maxFileBytes ∧ policy.maxFileBytes ≤ 16777216 := by
  obtain ⟨parsed, hparsed, rfl⟩ := Option.map_eq_some_iff.mp h
  obtain ⟨o, -, h⟩ := bind_some hparsed
  obtain ⟨includes, -, h⟩ := bind_some h
  obtain ⟨exclude, -, h⟩ := bind_some h
  obtain ⟨hidden, -, h⟩ := bind_some h
  obtain ⟨respectIgnore, -, h⟩ := bind_some h
  obtain ⟨maxFileBytes, hbytes, h⟩ := bind_some h
  obtain rfl := Option.some.inj h
  exact le_of_withDefault (by decide) hbytes

/-- The lists of the scope of a search. -/
theorem patterns_of_searchScope {input : Json} {policy : Policy} {r : SearchRequest}
    (hpolicy : createPolicy input = some policy)
    (hnarrow : ∀ narrow, r.narrow = some narrow → ∃ v, narrowSchema v = some narrow) :
    (∀ g ∈ (Registry.searchScope policy r).includeGroups, Patterns 64 g) ∧
      Patterns 128 (Registry.searchScope policy r).exclude := by
  rw [Registry.searchScope]
  cases h : r.narrow with
  | some narrow =>
      obtain ⟨v, hv⟩ := hnarrow narrow h
      exact Workspace.patterns_of_narrowPolicy hpolicy hv
  | none =>
      -- no narrowing is the narrowing by empty lists
      have hempty : narrowSchema (.obj [(units "include", .arr []), (units "exclude", .arr [])])
          = some Narrow.none := by decide +kernel
      exact Workspace.patterns_of_narrowPolicy hpolicy hempty

theorem ids_of_parsed {input : Json} {request : Request} (h : parseRequest input = some request) :
    isId request.workspaceId = true ∧ isId request.scopePolicyId = true := by
  obtain ⟨members, rfl, henvelope⟩ := envelope_of_requestSchema (Option.filter_eq_some_iff.mp h).1
  obtain ⟨-, hworkspace, hpolicy, -⟩ := envelope_ids henvelope
  obtain ⟨v, hv⟩ := required_eq_some hworkspace
  obtain ⟨v', hv'⟩ := required_eq_some hpolicy
  exact ⟨isId_of_idSchema hv, isId_of_idSchema hv'⟩

/-- **An answer of the registry is fit for the envelope.** -/
theorem authorized_of_asks {host : Host} {input v : Json} {request : Request} {events : List Workspace.Event}
    {signal : Option Client.SignalId} {r : SearchRequest} {entry : Workspace.Entry} {registry : Registry}
    {promise : Client.Promised} {result : Client.WorkerResponse} (hsha : ∀ b, (host.sha256 b).length = 32)
    (hparse : parseRequest input = some request) (hread : ReadAs request r)
    (h : Registry.Asks host v signal (Registry.after host events) registry r entry) :
    Authorized request (Registry.answerOf host
      { entry := entry, scope := Registry.searchScope entry.registration.policy r, promise := promise }
      result) := by
  obtain ⟨⟨policyInput, hpolicy⟩, hhash⟩ := (Registry.compiled_after host events).entries _ h.entry
  obtain ⟨hgroup, hexclude⟩ := patterns_of_searchScope hpolicy hread.narrow
  refine ⟨h.workspaceId.trans hread.workspaceId, h.scopePolicyId.trans hread.scopePolicyId,
    ids_of_parsed hparse, ?_, isDigest_fingerprint hsha _, (Workspace.patterns_of_createPolicy hpolicy).1,
    ⟨Nat.le_refl 2, hgroup⟩, hexclude, maxFileBytes_of_createPolicy hpolicy⟩
  show isDigest entry.registration.policyHash = true
  rw [hhash]
  exact isDigest_fingerprint hsha _

theorem Authorized.shown {request : Request} {a : Answer} (h : Authorized request a) :
    Patterns 64 (shownIncludes a) := by
  unfold shownIncludes
  split
  · rename_i hgroup
    exact h.groups.2 _ (List.mem_of_getElem? hgroup)
  · exact h.includes

/-- The counters and the snapshot hash of a success. -/
structure Countable (s : WorkerSuccess) : Prop where
  searched : s.counts.searched ≤ MAX_SAFE_INTEGER
  failed : s.counts.failed ≤ MAX_SAFE_INTEGER
  snapshot : isDigest s.policySnapshotHash = true

theorem Authorized.scopeSchema {request : Request} {a : Answer} {s : WorkerSuccess}
    (h : Authorized request a) (hs : Countable s) : Service.scopeSchema (scope a s) = true := by
  have hshown := h.shown
  have hunknown : ∀ reason ∈ ["No index is consulted",
      "Worker counts pruned entries, not excluded descendant files",
      "Worker exclusions are not yet categorized"], reportedCountSchema (.unknown reason) = true := by
    decide
  simp only [List.forall_mem_cons] at hunknown
  have hgroups : a.scope.includeGroups.all
      (fun g => decide (g.length ≤ 64) && g.all (boundedText 1 1024)) = true := by
    refine List.all_eq_true.mpr fun g hg => Bool.and_eq_true_iff.mpr ⟨?_, all_boundedText (h.groups.2 g hg)⟩
    exact decide_eq_true (h.groups.2 g hg).length
  have hids : isId a.workspaceId = true ∧ isId a.scopePolicyId = true := by
    rw [h.workspaceId, h.scopePolicyId]
    exact h.ids
  have hsearched : reportedCountSchema (.known s.counts.searched) = true := decide_eq_true hs.searched
  have hfailed : reportedCountSchema (.known s.counts.failed) = true := decide_eq_true hs.failed
  simp only [Service.scopeSchema, scope, hids.1, hids.2, h.policyHash, h.effectivePolicyHash, hs.snapshot,
    hshown.length, all_boundedText hshown, h.exclude.length, all_boundedText h.exclude, h.groups.1,
    hgroups, h.maxFileBytes.1, h.maxFileBytes.2, List.all_cons, List.all_nil, hsearched, hfailed,
    hunknown.1, hunknown.2.1, hunknown.2.2.1, decide_true, Bool.and_self]

theorem Authorized.byteText {request : Request} {a : Answer} {s : WorkerSuccess}
    (h : Authorized request a) :
    ((scope a s).includes ++ (scope a s).exclude).all (Service.byteText · 1024) = true := by
  refine List.all_eq_true.mpr fun p hp => ?_
  rcases List.mem_append.mp hp with hp | hp
  · exact (boundedText_of_isPattern (h.shown.each p hp)).2
  · exact (boundedText_of_isPattern (h.exclude.each p hp)).2

/-! ## §4 — issues and coverage. -/

/-- What becomes of the codes a walk can leave: no fatal issue, and a partial reason. -/
theorem reasons_of_issueCodes : ∀ c ∈ Worker.issueCodes, mapped (codeName c) ∉ fatalCodes ∧
    (reasons (mapped (codeName c))).isSome = true := by decide

/-- A partial reason has an issue of its own. -/
theorem reasonCodes_reasons {code : IssueCode} {reason : PartialReason} (h : reasons code = some reason) :
    code ∈ reasonCodes reason := by
  cases code with
  | limitReached | byteLimit | cancelled | readFailed | deadline | policyChanged | sourceMutated =>
      cases h
      decide
  | _ => cases h

theorem dedupIssues_subset (issues : List Issue) : ∀ i ∈ dedupIssues issues, i ∈ issues := by
  have hfold : ∀ (issues kept : List Issue), ∀ i ∈ issues.foldl
      (fun kept i => if kept.any (·.code == i.code) then kept else kept ++ [i]) kept,
        i ∈ kept ∨ i ∈ issues := by
    intro issues
    induction issues with
    | nil => exact fun kept i hi => .inl hi
    | cons j issues ih =>
        intro kept i hi
        rw [List.foldl_cons] at hi
        rcases ih _ i hi with hi | hi
        · split at hi
          · exact .inl hi
          · rcases List.mem_append.mp hi with hi | hi
            · exact .inl hi
            · exact .inr (List.mem_cons.mpr (.inl (List.mem_singleton.mp hi)))
        · exact .inr (List.mem_cons_of_mem j hi)
  intro i hi
  rcases hfold issues [] i hi with hi | hi
  · cases hi
  · exact hi

/-- An issue comes from a code. -/
theorem exists_code {codes : List Code} {i : Issue} (h : i ∈ issuesOf codes) :
    ∃ c ∈ codes, i = issue (codeName c) := by
  obtain ⟨c, hc, rfl⟩ := List.mem_map.mp (dedupIssues_subset _ i h)
  exact ⟨c, hc, rfl⟩

/-- What `parseResponse` asks of the issues of a response. -/
structure Presentable (issues : List Issue) : Prop where
  nodup : (issues.map (·.code)).Nodup
  issued : ∀ i ∈ issues, i = issueOf i.code
  harmless : ∀ i ∈ issues, i.code ∉ fatalCodes

section Codes

variable {codes : List Code}

theorem presentable_issuesOf (h : ∀ c ∈ codes, c ∈ Worker.issueCodes) : Presentable (issuesOf codes) := by
  refine ⟨nodup_dedupIssues _, fun i hi => ?_, fun i hi => ?_⟩
  · obtain ⟨c, -, rfl⟩ := exists_code hi
    rfl
  · obtain ⟨c, hc, rfl⟩ := exists_code hi
    exact (reasons_of_issueCodes c (h c hc)).1

theorem presentable_cutIssues (h : ∀ c ∈ codes, c ∈ Worker.issueCodes) : Presentable (cutIssues codes) := by
  have hissues := presentable_issuesOf h
  have hmem : ∀ i ∈ cutIssues codes, i ∈ issuesOf codes ∨ i = issueOf .byteLimit := by
    intro i hi
    unfold cutIssues at hi
    split at hi
    · exact .inl hi
    · rcases List.mem_append.mp hi with hi | hi
      · exact .inl hi
      · exact .inr ((List.mem_singleton.mp hi).trans issue_byteLimit)
  refine ⟨nodup_cutIssues codes, fun i hi => ?_, fun i hi => ?_⟩
  · rcases hmem i hi with hi | rfl
    · exact hissues.issued i hi
    · rfl
  · rcases hmem i hi with hi | rfl
    · exact hissues.harmless i hi
    · decide

theorem Presentable.length_le {issues : List Issue} (h : Presentable issues) : issues.length ≤ 128 := by
  have hall : ∀ code : IssueCode, code ∈ [.invalidRequest, .unsupportedVersion, .unavailable, .outOfScope,
      .revisionMismatch, .readFailed, .sourceMutated, .policyChanged, .limitReached, .byteLimit,
      .cancelled, .deadline, .indexMissing, .indexIncompatible, .indexUnavailable, .indexBusy,
      .storageFull, .providerFailed, .egressDenied, IssueCode.capabilityUnavailable] := by
    intro code
    cases code <;> decide
  have hle := (List.subperm_of_subset h.nodup fun code _ => hall code).length_le
  rw [List.length_map] at hle
  exact hle.trans (by decide)

theorem Presentable.schema {issues : List Issue} (h : Presentable issues) :
    issues.all issueSchema = true := by
  refine List.all_eq_true.mpr fun i hi => ?_
  rw [h.issued i hi]
  exact issueSchema_issueOf _

theorem Presentable.any_fatal {issues : List Issue} (h : Presentable issues) :
    issues.any (fun i => fatalCodes.contains i.code) = false := by
  refine List.any_eq_false.mpr fun i hi hfatal => h.harmless i hi ?_
  exact List.contains_iff_mem.mp hfatal

/-- A reason stands for an issue. -/
theorem exists_issue {issues : List Issue} {reason : PartialReason} (h : reason ∈ partialReasonsOf issues) :
    ∃ i ∈ issues, i.code ∈ reasonCodes reason := by
  rw [partialReasonsOf, List.mem_eraseDups] at h
  obtain ⟨i, hi, hreason⟩ := List.mem_filterMap.mp h
  exact ⟨i, hi, reasonCodes_reasons hreason⟩

theorem partialReasonsHold_of {reasons : List PartialReason} {issues : List Issue} (hnodup : reasons.Nodup)
    (h : ∀ reason ∈ reasons, ∃ i ∈ issues, i.code ∈ reasonCodes reason) :
    partialReasonsHold reasons issues = true := by
  rw [partialReasonsHold, Bool.and_eq_true, decide_eq_true_eq, List.all_eq_true]
  refine ⟨hnodup, fun reason hreason => ?_⟩
  obtain ⟨i, hi, hcode⟩ := h reason hreason
  exact List.any_eq_true.mpr ⟨i, hi, List.contains_iff_mem.mpr hcode⟩

/-- There are six partial reasons. -/
theorem length_reasons_le {reasons : List PartialReason} (h : reasons.Nodup) : reasons.length ≤ 6 := by
  have hall : ∀ reason : PartialReason, reason ∈ [.limit, .cancelled, .readFailure, .deadline,
      .policyChanged, PartialReason.sourceMutated] := by
    intro reason
    cases reason <;> decide
  exact (List.subperm_of_subset h fun reason _ => hall reason).length_le

/-- What `parseResponse` asks of a coverage. -/
def Covers (issues : List Issue) (failed : Nat) : ExactCoverage → Prop
  | .complete => issues = [] ∧ failed = 0
  | .incomplete reasons => reasons ≠ [] ∧ reasons.Nodup ∧
      ∀ reason ∈ reasons, ∃ i ∈ issues, i.code ∈ reasonCodes reason

/-- Without a partial reason there was no code. -/
theorem codes_eq_nil (h : ∀ c ∈ codes, c ∈ Worker.issueCodes)
    (hnone : partialReasonsOf (issuesOf codes) = []) : codes = [] := by
  cases codes with
  | nil => rfl
  | cons c rest =>
      have hmem : c ∈ c :: rest := List.mem_cons_self
      obtain ⟨i, hi, hcode⟩ := mem_issuesOf hmem
      have hsome : (reasons i.code).isSome = true := by
        rw [hcode]
        exact (reasons_of_issueCodes c (h c List.mem_cons_self)).2
      exact absurd hnone (partialReasonsOf_ne_nil hi hsome)

theorem covers_full {failed : Nat} (h : ∀ c ∈ codes, c ∈ Worker.issueCodes)
    (hfailed : failed ≠ 0 → codes ≠ []) :
    Covers (issuesOf codes) failed (coverageOf (partialReasonsOf (issuesOf codes))) := by
  unfold coverageOf
  split
  · rename_i hnone
    have hcodes := codes_eq_nil h hnone
    refine ⟨?_, Decidable.byContradiction fun hf => hfailed hf hcodes⟩
    rw [hcodes]
    rfl
  · rename_i hsome
    exact ⟨hsome, nodup_eraseDups _, fun reason hreason => exists_issue hreason⟩

theorem covers_cut (codes : List Code) (failed : Nat) :
    Covers (cutIssues codes) failed (.incomplete (cutReasons codes)) := by
  refine ⟨List.ne_nil_of_mem (mem_cutReasons.mpr (.inr rfl)), nodup_eraseDups _, fun reason hreason => ?_⟩
  rcases mem_cutReasons.mp hreason with hreason | rfl
  · obtain ⟨i, hi, hcode⟩ := exists_issue hreason
    exact ⟨i, mem_cutIssues hi, hcode⟩
  · obtain ⟨i, hi, hcode⟩ := byteLimit_mem_cutIssues codes
    refine ⟨i, hi, ?_⟩
    rw [hcode]
    decide

end Codes

/-! ## §5 — the responses that are built. -/

/-- What the envelope relies on of the platform: a digest has 32 bytes, and the clock shows a date. -/
structure Standard (w : World) : Prop where
  sha256 : ∀ b, (w.sha256 b).length = 32
  dated : ∀ n, w.dates.isDatetime (w.dates.iso (w.date n)) = true

/-- A hit that was cut from a file. -/
def Sourced (engine : Engine) (x : WorkerHit) : Prop :=
  ∃ hit bytes, x = .ofHit hit ∧ WellCut engine bytes hit ∧ isText bytes = true ∧ bytes.length ≤ 16777216

/-- What the envelope is given of a success. -/
structure Received (engine : Engine) (s : WorkerSuccess) : Prop where
  countable : Countable s
  codes : ∀ c ∈ s.reasons, c ∈ Worker.issueCodes
  failed : s.counts.failed ≠ 0 → s.reasons ≠ []
  sourced : ∀ x ∈ s.hits, Sourced engine x

section Built

variable {engine : Engine} {w : World} {request : Request} {a : Answer} {s : WorkerSuccess}
  {issues : List Issue}

theorem Sourced.evidence {x : WorkerHit} (hsha : ∀ b, (engine.sha256 b).length = 32) (hw : Standard w)
    (h : Sourced engine x) : evidenceSchema (evidence w.sha256 a x) = true ∧
      evidenceShape (evidence w.sha256 a x) = true := by
  obtain ⟨hit, bytes, rfl, hcut, htext, hlen⟩ := h
  have hid : isId (evidenceId w.sha256 a (.ofHit hit)) = true :=
    isId_of_isDigest (isDigest_fingerprint hw.sha256 _)
  exact ⟨evidenceSchema_ofHit hsha hid hcut htext hlen, evidenceShape_ofHit hcut htext hlen⟩

/-- The envelope passes, around a result that passes. -/
theorem parseResponse_ok {result : Result} (hid : isId request.requestId = true)
    (hauthorized : Authorized request a) (hcountable : Countable s) (hissues : Presentable issues)
    (hschema : resultSchema w.dates result = true)
    (hresult : resultInvariants (scope a s) issues result request.operation = true)
    (hbytes : (Response.ok request.requestId (scope a s) issues result).bytes w.dates ≤ 1048576) :
    parseResponse w.dates (.ok request.requestId (scope a s) issues result) request
      = some (.ok request.requestId (scope a s) issues result) := by
  have hschemas : responseSchema w.dates (.ok request.requestId (scope a s) issues result) = true := by
    simp only [responseSchema, hid, hauthorized.scopeSchema hcountable, hissues.length_le, hissues.schema,
      hschema, decide_true, Bool.and_self]
  have hinvariants : responseInvariants
      ((Response.ok request.requestId (scope a s) issues result).bytes w.dates) request
      (.ok request.requestId (scope a s) issues result) = true := by
    have hworkspace : ((scope a s).workspaceId == request.workspaceId) = true :=
      beq_iff_eq.mpr hauthorized.workspaceId
    have hpolicy : ((scope a s).policyId == request.scopePolicyId) = true :=
      beq_iff_eq.mpr hauthorized.scopePolicyId
    simp only [responseInvariants, beq_self_eq_true, decide_eq_true hbytes, hworkspace, hpolicy,
      hissues.any_fatal, hauthorized.byteText, hresult, Bool.not_false, Bool.and_self]
  exact if_pos (Bool.and_eq_true_iff.mpr ⟨hschemas, hinvariants⟩)

/-- **An exact response passes**, whole or cut. -/
theorem parseResponse_exact {kind : QueryKind} {query : JsString} {caseSensitive : Bool} {maxMatches : Nat}
    {coverage : ExactCoverage} {hits : List WorkerHit} (hsha : ∀ b, (engine.sha256 b).length = 32)
    (hw : Standard w) (hid : isId request.requestId = true)
    (hoperation : request.operation = .exact kind query caseSensitive maxMatches)
    (hmost : maxMatches ≤ 1000) (hauthorized : Authorized request a) (hs : Received engine s)
    (hissues : Presentable issues) (hcovers : Covers issues s.counts.failed coverage)
    (hsourced : ∀ x ∈ hits, Sourced engine x) (hlength : hits.length ≤ maxMatches)
    (hbytes : (exactResponse w request a s kind issues coverage hits).bytes w.dates ≤ 1048576) :
    parseResponse w.dates (exactResponse w request a s kind issues coverage hits) request
      = some (exactResponse w request a s kind issues coverage hits) := by
  have hended : w.dates.isDatetime (w.dates.iso (max (w.date 0) (w.date 1))) = true := by
    rcases Nat.le_total (w.date 0) (w.date 1) with h | h
    · rw [Nat.max_eq_right h]
      exact hw.dated 1
    · rw [Nat.max_eq_left h]
      exact hw.dated 0
  have hevidence : ∀ x ∈ hits, evidenceSchema (evidence w.sha256 a x) = true ∧
      evidenceShape (evidence w.sha256 a x) = true := fun x hx => (hsourced x hx).evidence hsha hw
  refine @parseResponse_ok w request a s issues (.exact (w.date 0) (max (w.date 0) (w.date 1)) coverage
    (hits.map (published w a kind))) hid hauthorized hs.countable hissues ?_ ?_ hbytes
  · have hversion : isId MATCHER_VERSION = true := by decide
    have hall : (hits.map (published w a kind)).all
        (fun hit => evidenceSchema hit.evidence && isId hit.matcherVersion) = true := by
      rw [List.all_map]
      exact List.all_eq_true.mpr fun x hx =>
        Bool.and_eq_true_iff.mpr ⟨(hevidence x hx).1, hversion⟩
    have hcount : (hits.map (published w a kind)).length ≤ 1000 := by
      rw [List.length_map]
      exact hlength.trans hmost
    simp only [resultSchema, hw.dated 0, hended, hall, decide_eq_true hcount, Bool.true_and, Bool.and_true]
    -- an incomplete result has reasons, and no more than there are
    cases coverage with
    | complete => rfl
    | incomplete reasons =>
        obtain ⟨hne, hnodup, -⟩ := hcovers
        exact Bool.and_eq_true_iff.mpr ⟨decide_eq_true (List.length_pos_iff.mpr hne),
          decide_eq_true (length_reasons_le hnodup)⟩
  · have hall : (hits.map (published w a kind)).all
        (fun hit => evidenceShape hit.evidence && hit.queryKind == kind) = true := by
      rw [List.all_map]
      exact List.all_eq_true.mpr fun x hx =>
        Bool.and_eq_true_iff.mpr ⟨(hevidence x hx).2, beq_self_eq_true kind⟩
    have hcount : (hits.map (published w a kind)).length ≤ maxMatches := by
      rw [List.length_map]
      exact hlength
    have hordered : decide (w.date 0 ≤ max (w.date 0) (w.date 1)) = true :=
      decide_eq_true (Nat.le_max_left _ _)
    rw [hoperation]
    simp only [resultInvariants, exactInvariants, hall, hordered, decide_eq_true hcount, Bool.true_and,
      Bool.and_true]
    cases coverage with
    | complete =>
        -- a complete result has nothing that failed
        obtain ⟨rfl, hzero⟩ := hcovers
        show (ReportedCount.known s.counts.failed == .known 0) = true
        rw [hzero]
        rfl
    | incomplete reasons => exact partialReasonsHold_of hcovers.2.1 hcovers.2.2

/-- The hit a read asked for. -/
structure Fetched (operation : ReadOperation) (target : JsString) (span : Range) (x : WorkerHit) :
    Prop where
  path : x.path = target
  range : x.range = span
  excerpt : x.excerpt.range = span
  untruncated : x.excerpt.truncated = false
  expected : ∀ digest, operation.expected = some digest → x.fileSha256 = digest

/-- The response of a read. -/
def readResponse (w : World) (request : Request) (a : Answer) (s : WorkerSuccess)
    (operation : ReadOperation) (x : WorkerHit) : Response :=
  .ok request.requestId (scope a s) (issuesOf s.reasons)
    (.read operation (evidence w.sha256 a x) (w.date 1))

/-- **The response of a read passes.** -/
theorem parseResponse_read {operation : ReadOperation} {path : JsString} {range : Range}
    {byteBudget : Nat} {x : WorkerHit} (hsha : ∀ b, (engine.sha256 b).length = 32)
    (hw : Standard w) (hid : isId request.requestId = true)
    (hoperation : request.operation = .read operation path range byteBudget)
    (hauthorized : Authorized request a) (hs : Received engine s) (hx : x ∈ s.hits)
    (hfetched : Fetched operation path range x)
    (hbytes : (readResponse w request a s operation x).bytes w.dates ≤ 1048576) :
    parseResponse w.dates (readResponse w request a s operation x) request
      = some (readResponse w request a s operation x) := by
  obtain ⟨hschema, hshape⟩ := (hs.sourced x hx).evidence (a := a) hsha hw
  refine @parseResponse_ok w request a s (issuesOf s.reasons)
    (.read operation (evidence w.sha256 a x) (w.date 1)) hid hauthorized hs.countable
    (presentable_issuesOf hs.codes) ?_ ?_ hbytes
  · rw [resultSchema, hschema, hw.dated 1]
    rfl
  · have hpath : ((evidence w.sha256 a x).path == path) = true := beq_iff_eq.mpr hfetched.path
    have hrange : ((evidence w.sha256 a x).range == range) = true := beq_iff_eq.mpr hfetched.range
    have hexcerpt : ((evidence w.sha256 a x).excerpt.range == range) = true :=
      beq_iff_eq.mpr hfetched.excerpt
    have htruncated : (evidence w.sha256 a x).excerpt.truncated = false := hfetched.untruncated
    rw [hoperation]
    cases operation with
    | verified digest =>
        have hdigest : ((evidence w.sha256 a x).fileSha256 == digest) = true :=
          beq_iff_eq.mpr (hfetched.expected digest rfl)
        simp only [resultInvariants, readInvariants, hshape, hpath, hrange, hexcerpt, htruncated, hdigest,
          Bool.not_false, Bool.and_self]
    | fresh =>
        simp only [resultInvariants, readInvariants, hshape, hpath, hrange, hexcerpt, htruncated,
          Bool.not_false, Bool.and_self]

end Built

/-- A success of the worker, for the request `sent` that the registry behind some events made of `v`, and
`a`, the answer it comes back in. -/
structure Served {σ φ : Type} (host : Host) (engine : Engine) (os : Worker.Os σ φ) (v : Json) (a : Answer)
    (s : Success) (r : SearchRequest) (sent : WorkerRequest) (t : Worker.Request) : Prop where
  asked : ∃ events signal entry promise, Registry.Asks host v signal (Registry.after host events)
      ((Registry.after host events).step host (.search v signal)) r entry ∧
    a = Registry.answerOf host
      { entry := entry, scope := Registry.searchScope entry.registration.policy r, promise := promise }
      (.ok (.ofSuccess s))
  accepted : ∃ k, acceptInput (requestId k) (Registry.searchInput a.policy r) = some sent
  decoded : ∃ remaining ≤ sent.deadlineMs, fromSlice (requestBody sent remaining) = some t
  ran : ∃ root state w', Worker.search engine os root t ⟨state, []⟩ = (.ok s, w')

section Served

variable {σ φ : Type} {host : Host} {engine : Engine} {os : Worker.Os σ φ} {v : Json} {a : Answer}
  {s : Success} {r : SearchRequest} {sent : WorkerRequest} {t : Worker.Request}

theorem Served.result (h : Served host engine os v a s r sent t) : a.result = .ok (.ofSuccess s) := by
  obtain ⟨events, signal, entry, promise, -, rfl⟩ := h.asked
  rfl

theorem Served.same (h : Served host engine os v a s r sent t) :
    ∃ remaining, Client.SameRequest sent remaining t := by
  obtain ⟨k, haccept⟩ := h.accepted
  obtain ⟨remaining, hremaining, hdecode⟩ := h.decoded
  exact ⟨remaining,
    Client.sameRequest_of_decoded (Client.acceptInput_spec haccept) hremaining hdecode⟩

theorem Served.authorized {input : Json} {request : Request} (hsha : ∀ b, (host.sha256 b).length = 32)
    (hparse : parseRequest input = some request) (hread : ReadAs request r)
    (h : Served host engine os v a s r sent t) : Authorized request a := by
  obtain ⟨events, signal, entry, promise, hasks, rfl⟩ := h.asked
  exact authorized_of_asks hsha hparse hread hasks

/-- **What every success of the worker brings to the envelope.** -/
theorem Served.received (hregular : Client.Regular engine) (h : Served host engine os v a s r sent t) :
    Received engine (.ofSuccess s) := by
  obtain ⟨root, state, w', hrun⟩ := h.ran
  obtain ⟨matcher, deadline, hmatcher, hpromised⟩ := Worker.search_promised hrun
  obtain ⟨matcher', scope, hchecked, -⟩ := Worker.search_ok hrun
  have hvalid : Worker.Valid t := Worker.validate_ok hchecked
  have hmax : 100000 + 1 ≤ MAX_SAFE_INTEGER := by decide
  have hcounted := hpromised.counted
  have hfailed := hpromised.failed
  have hvisited := hpromised.visited.trans hvalid.maxEntries.2
  refine ⟨⟨?_, ?_, ?_⟩, hpromised.reasoned.codes, hpromised.reasoned.failed, ?_⟩
  · show s.counts.searched ≤ MAX_SAFE_INTEGER
    omega
  · show s.counts.failed ≤ MAX_SAFE_INTEGER
    omega
  · obtain ⟨observations, hsnapshot⟩ := hpromised.snapshot
    show isDigest (encode s.policySnapshotHash) = true
    rw [hsnapshot]
    exact Client.isDigest_hex (hregular.sha256 _)
  · intro x hx
    obtain ⟨hit, hhit, rfl⟩ := List.mem_map.mp hx
    obtain ⟨bytes, hcut, htext, hlen⟩ := Client.exists_wellCut hregular hvalid hmatcher hpromised hhit
    exact ⟨hit, bytes, rfl, hcut, htext, hlen.trans hvalid.maxFileBytes.2⟩

/-- An exact search has at most the matches that were asked for. -/
theorem Served.most {request : Request} {kind : QueryKind} {query : JsString} {caseSensitive : Bool}
    {maxMatches : Nat} (hread : ReadAs request r)
    (hoperation : request.operation = .exact kind query caseSensitive maxMatches)
    (h : Served host engine os v a s r sent t) :
    (s.hits.map WorkerHit.ofHit).length ≤ maxMatches ∧ maxMatches ≤ 1000 := by
  obtain ⟨hnone, hmatches⟩ := hread.exact _ _ _ _ hoperation
  obtain ⟨k, haccept⟩ := h.accepted
  obtain ⟨hsent, hmost⟩ := sent_of_acceptInput haccept
  obtain ⟨remaining, hsame⟩ := h.same
  obtain ⟨root, state, w', hrun⟩ := h.ran
  obtain ⟨matcher, deadline, -, hpromised⟩ := Worker.search_promised hrun
  obtain ⟨matcher', scope, hchecked, -⟩ := Worker.search_ok hrun
  have hvalid : Worker.Valid t := Worker.validate_ok hchecked
  have hrequest : t.maxMatches = maxMatches := by rw [hsame.maxMatches, hmost, hmatches]
  have hplain : t.read = none := by
    have hmap := hsame.read
    rw [hsent, hnone, Option.map_eq_none_iff] at hmap
    exact hmap
  have hlength : s.hits.length ≤ t.maxMatches := hpromised.most hplain
  have hvalidMost := hvalid.maxMatches.2
  rw [List.length_map]
  omega

/-- A read has hits, and all of them are what it asked for. -/
theorem Served.fetched {request : Request} {operation : ReadOperation} {path : JsString} {range : Range}
    {byteBudget : Nat} (hread : ReadAs request r)
    (hoperation : request.operation = .read operation path range byteBudget)
    (h : Served host engine os v a s r sent t) :
    s.hits ≠ [] ∧ ∀ x ∈ s.hits.map WorkerHit.ofHit, Fetched operation path range x := by
  obtain ⟨k, haccept⟩ := h.accepted
  obtain ⟨hsent, -⟩ := sent_of_acceptInput haccept
  obtain ⟨remaining, hsame⟩ := h.same
  obtain ⟨root, state, w', hrun⟩ := h.ran
  obtain ⟨matcher, deadline, -, hpromised⟩ := Worker.search_promised hrun
  have hmap := hsame.read
  rw [hsent, hread.read _ _ _ _ hoperation, Option.map_eq_some_iff] at hmap
  obtain ⟨asked, hasked, hofInput⟩ := hmap
  obtain ⟨rfl, rfl, hexpected⟩ := WorkerRead.mk.inj hofInput
  refine ⟨(hpromised.read (by rw [hasked]; rfl)).2, fun x hx => ?_⟩
  obtain ⟨hit, hhit, rfl⟩ := List.mem_map.mp hx
  obtain ⟨fd, bytes, -, -, -, hreported⟩ := (hpromised.evidenced hit hhit).source
  cases hreported with
  | found path start stop hnone =>
    -- a search with a read reports no matches
    rw [hasked] at hnone
    cases hnone
  | read q hq hvalid hdigest =>
    obtain rfl : asked = q := Option.some.inj (hasked.symm.trans hq)
    refine ⟨rfl, rfl, rfl, rfl, fun digest hgiven => ?_⟩
    rw [← hexpected, Option.map_eq_some_iff] at hgiven
    obtain ⟨d, hd, rfl⟩ := hgiven
    exact congrArg encode (hdigest d hd).symm

end Served

/-! ## §6 — `execute`. -/

/-- The responses that `execute` builds of a success. -/
inductive Built (w : World) (request : Request) (a : Answer) (s : WorkerSuccess) : Response → Prop
  | whole {kind : QueryKind} {query : JsString} {caseSensitive : Bool} {maxMatches : Nat}
      (hoperation : request.operation = .exact kind query caseSensitive maxMatches) :
      Built w request a s (fullResponse w request a s kind)
  | cut {kind : QueryKind} {query : JsString} {caseSensitive : Bool} {maxMatches : Nat}
      (hoperation : request.operation = .exact kind query caseSensitive maxMatches) (n : Nat) :
      Built w request a s (cutResponse w request a s kind n)
  | read {operation : ReadOperation} {path : JsString} {range : Range} {byteBudget : Nat}
      (hoperation : request.operation = .read operation path range byteBudget) {x : WorkerHit}
      {rest : List WorkerHit} (hhits : s.hits = x :: rest) :
      Built w request a s (readResponse w request a s operation x)

/-- The error that takes the place of a built response, and what has to have happened for it. -/
inductive Interrupted (w : World) (request : Request) (context : Context) (a : Answer) (s : WorkerSuccess) :
    Response → Prop
  /-- The signal was aborted before the search, or behind it. -/
  | cancelled (h : w.abortedBefore = true ∨ w.abortedAfter = true) :
      Interrupted w request context a s (.error request.requestId (issueOf .cancelled))
  /-- No whole millisecond was left for the search, or the clock was late behind it. -/
  | deadline (h : (context.deadlineMs * 1000000 - (w.clock 1 - w.clock 0)) / 1000000 < 1 ∨
        ∃ n, late w context n = true) :
      Interrupted w request context a s (.error request.requestId (issueOf .deadline))
  /-- Nothing that is built of the success fits. -/
  | byteLimit (h : ∀ response, Built w request a s response →
        context.responseBytes < response.bytes w.dates) :
      Interrupted w request context a s (.error request.requestId (issueOf .byteLimit))

/-- The whole milliseconds that are left when the registry is asked. -/
def remainingMs (w : World) (context : Context) : Nat :=
  ((context.deadlineMs * 1000000 - (w.clock 1 - w.clock 0)) / 1000000).toNat

section Execute

variable {w : World} {request : Request} {context : Context} {a : Answer} {s : WorkerSuccess}

/-- An end of the `try` that is a built response or an interruption. -/
def Delivers (w : World) (request : Request) (context : Context) (a : Answer) (s : WorkerSuccess)
    (result : Except Thrown Response) : Prop :=
  ∃ response, result = .ok response ∧ (Built w request a s response ∨ Interrupted w request context a s response)

/-- An error with a reason. -/
theorem delivers_fail (hid : isId request.requestId = true) {code : String}
    (h : Interrupted w request context a s (.error request.requestId (issue code))) :
    Delivers w request context a s (fail w request code) := by
  refine ⟨.error request.requestId (issue code), ?_, .inr h⟩
  rw [fail, errorResponse_eq_some hid]

/-- A built response that passes is published, or interrupted. -/
theorem delivers_finish (hid : isId request.requestId = true) (hcap : context.responseBytes ≤ 1048576)
    {response : Response} {reading : Nat} (hbuilt : Built w request a s response)
    (hpasses : response.bytes w.dates ≤ 1048576 →
      parseResponse w.dates response request = some response)
    (hover : context.responseBytes < response.bytes w.dates → ∀ other, Built w request a s other →
      context.responseBytes < other.bytes w.dates) :
    Delivers w request context a s (finish w request context reading response) := by
  unfold finish
  split
  · rename_i hlong
    exact delivers_fail hid (.byteLimit (hover hlong))
  · rename_i hfits
    rw [hpasses ((Nat.not_lt.mp hfits).trans hcap)]
    dsimp only
    split
    · rename_i hlate
      exact delivers_fail hid (.deadline (.inr ⟨reading, hlate⟩))
    · exact ⟨response, rfl, .inl hbuilt⟩

/-- The search for the longest prefix ends where it began, or at a length that fits. -/
theorem trim_fits {fits late : Nat → Bool} (fuel : Nat) : ∀ {reading low high n reading' : Nat},
    trim fits late fuel reading low high = some (n, reading') → n = low ∨ fits n = true := by
  induction fuel with
  | zero =>
    intro reading low high n reading' h
    exact .inl (Prod.mk.inj (Option.some.inj h)).1.symm
  | succ fuel ih =>
    intro reading low high n reading' h
    rw [trim] at h
    split at h
    · split at h
      · cases h
      · dsimp only at h
        split at h
        · rename_i hfits
          rcases ih h with rfl | hn
          · exact .inr hfits
          · exact .inr hn
        · exact ih h
    · exact .inl (Prod.mk.inj (Option.some.inj h)).1.symm

/-- A search that runs out of time has met a late clock. -/
theorem late_of_trim {fits late : Nat → Bool} (fuel : Nat) : ∀ {reading low high : Nat},
    trim fits late fuel reading low high = none → ∃ n, late n = true := by
  induction fuel with
  | zero =>
    intro reading low high h
    cases h
  | succ fuel ih =>
    intro reading low high h
    rw [trim] at h
    split at h
    · split at h
      · rename_i hlate
        exact ⟨reading, hlate⟩
      · dsimp only at h
        split at h <;> exact ih h
    · cases h

section Exact

variable {kind : QueryKind} {query : JsString} {caseSensitive : Bool} {maxMatches : Nat}

/-- Where neither the whole response nor the empty prefix fits, nothing does. -/
theorem over_of_exact (hoperation : request.operation = .exact kind query caseSensitive maxMatches)
    (hfull : context.responseBytes < (fullResponse w request a s kind).bytes w.dates)
    (hempty : context.responseBytes < (cutResponse w request a s kind 0).bytes w.dates) :
    ∀ other, Built w request a s other → context.responseBytes < other.bytes w.dates := by
  intro other hbuilt
  cases hbuilt with
  | whole h =>
    obtain ⟨rfl, -⟩ := Operation.exact.inj (hoperation.symm.trans h)
    exact hfull
  | cut h n =>
    obtain ⟨rfl, -⟩ := Operation.exact.inj (hoperation.symm.trans h)
    exact Nat.lt_of_lt_of_le hempty (bytes_exactResponse_mono w request a s _ (Nat.zero_le n))
  | read h hhits =>
    rw [hoperation] at h
    cases h

theorem delivers_exact (hid : isId request.requestId = true) (hcap : context.responseBytes ≤ 1048576)
    (hoperation : request.operation = .exact kind query caseSensitive maxMatches)
    (hpasses : ∀ response, Built w request a s response → response.bytes w.dates ≤ 1048576 →
      parseResponse w.dates response request = some response) :
    Delivers w request context a s (executeExact w request context a s kind) := by
  rw [executeExact_eq]
  split
  · rename_i hfull
    split
    · rename_i hnone
      exact delivers_fail hid (.deadline (.inr (late_of_trim _ hnone)))
    · rename_i n reading htrim
      have hbuilt : Built w request a s (cutResponse w request a s kind n) := .cut hoperation n
      refine delivers_finish hid hcap hbuilt (hpasses _ hbuilt) fun hlong => ?_
      -- a length other than zero was only kept because it fits
      rcases trim_fits _ htrim with rfl | hfits
      · exact over_of_exact hoperation hfull hlong
      · exact absurd (of_decide_eq_true hfits) (Nat.not_le.mpr hlong)
  · rename_i hfits
    have hbuilt : Built w request a s (fullResponse w request a s kind) := .whole hoperation
    exact delivers_finish hid hcap hbuilt (hpasses _ hbuilt) fun hlong => absurd hlong hfits

end Exact

section Read

variable {operation : ReadOperation} {path : JsString} {range : Range} {byteBudget : Nat}

theorem delivers_read (hid : isId request.requestId = true) (hcap : context.responseBytes ≤ 1048576)
    (hoperation : request.operation = .read operation path range byteBudget) (hhits : s.hits ≠ [])
    (hpasses : ∀ response, Built w request a s response → response.bytes w.dates ≤ 1048576 →
      parseResponse w.dates response request = some response) :
    Delivers w request context a s (executeRead w request context a s operation) := by
  cases hx : s.hits with
  | nil => exact absurd hx hhits
  | cons x rest =>
    have hbuilt : Built w request a s (readResponse w request a s operation x) := .read hoperation hx
    rw [executeRead, hx]
    refine delivers_finish hid hcap hbuilt (hpasses _ hbuilt) fun hlong other hother => ?_
    cases hother with
    | whole h =>
      rw [hoperation] at h
      cases h
    | cut h n =>
      rw [hoperation] at h
      cases h
    | read h hy =>
      obtain ⟨rfl, -⟩ := Operation.read.inj (hoperation.symm.trans h)
      obtain ⟨rfl, -⟩ := List.cons.inj (hx.symm.trans hy)
      exact hlong

end Read

/-- The `try` behind an answered search. -/
theorem delivers_attempt (hid : isId request.requestId = true) (hcap : context.responseBytes ≤ 1048576)
    (hsearched : ∀ question anchors, request.operation ≠ .discover question anchors)
    (hanswer : w.search (searchInput request (remainingMs w context) context.responseBytes) = .answered a)
    (hresult : a.result = .ok s)
    (hhits : ∀ operation path range byteBudget,
      request.operation = .read operation path range byteBudget → s.hits ≠ [])
    (hpasses : ∀ response, Built w request a s response → response.bytes w.dates ≤ 1048576 →
      parseResponse w.dates response request = some response) :
    Delivers w request context a s (attempt w request context) := by
  unfold remainingMs at hanswer
  unfold attempt
  dsimp only
  split
  · rename_i hremaining
    exact delivers_fail hid (.deadline (.inl hremaining))
  · rw [hanswer]
    dsimp only
    split
    · rename_i haborted
      exact delivers_fail hid (.cancelled (.inr haborted))
    · split
      · rename_i hlate
        exact delivers_fail hid (.deadline (.inr ⟨2, hlate⟩))
      · rw [hresult]
        dsimp only
        split
        · rename_i kind query caseSensitive maxMatches hoperation
          exact delivers_exact hid hcap hoperation hpasses
        · rename_i operation path range byteBudget hoperation
          exact delivers_read hid hcap hoperation (hhits _ _ _ _ hoperation) hpasses
        · rename_i question anchors hoperation
          exact absurd hoperation (hsearched question anchors)

end Execute

section Delivered

variable {σ φ : Type} {w : World} {host : Host} {engine : Engine} {os : Worker.Os σ φ} {caps context : Context}
  {input contextInput : Json} {request : Request} {v : Json} {a : Answer} {s : Success} {r : SearchRequest}
  {sent : WorkerRequest} {t : Worker.Request}

/-- What is built of a success of the worker passes `parseResponse`. -/
theorem passes_of_served (hw : Standard w) (hsha : ∀ b, (host.sha256 b).length = 32)
    (hregular : Client.Regular engine) (hrequest : parseRequest input = some request)
    (hread : ReadAs request r) (hserved : Served host engine os v a s r sent t) {response : Response}
    (hbuilt : Built w request a (.ofSuccess s) response) (hbytes : response.bytes w.dates ≤ 1048576) :
    parseResponse w.dates response request = some response := by
  have hid := (requestId_of_parsed hrequest).1
  have hauthorized := hserved.authorized hsha hrequest hread
  have hreceived := hserved.received hregular
  cases hbuilt with
  | whole hoperation =>
      obtain ⟨hlength, hmost⟩ := hserved.most hread hoperation
      exact parseResponse_exact hregular.sha256 hw hid hoperation hmost hauthorized hreceived
        (presentable_issuesOf hreceived.codes) (covers_full hreceived.codes hreceived.failed)
        hreceived.sourced hlength hbytes
  | cut hoperation n =>
      obtain ⟨hlength, hmost⟩ := hserved.most hread hoperation
      refine parseResponse_exact hregular.sha256 hw hid hoperation hmost hauthorized hreceived
        (presentable_cutIssues hreceived.codes) (covers_cut _ _)
        (fun x hx => hreceived.sourced x (List.mem_of_mem_take hx)) ?_ hbytes
      rw [List.length_take]
      exact (Nat.min_le_right _ _).trans hlength
  | read hoperation hhits =>
      have hmem : ∀ {x rest}, (WorkerSuccess.ofSuccess s).hits = x :: rest →
          x ∈ (WorkerSuccess.ofSuccess s).hits := fun h => by
        rw [h]
        exact List.mem_cons_self
      exact parseResponse_read hregular.sha256 hw hid hoperation hauthorized hreceived (hmem hhits)
        ((hserved.fetched hread hoperation).2 _ (hmem hhits)) hbytes

/-- `execute` returns something that is built of a success of the worker, or has been interrupted. -/
theorem execute_of_served (hw : Standard w) (hsha : ∀ b, (host.sha256 b).length = 32)
    (hregular : Client.Regular engine) (hrequest : parseRequest input = some request)
    (hcontext : contextSchema contextInput = some context) (hread : ReadAs request r)
    (hserved : Served host engine os v a s r sent t)
    (hanswer : w.search (searchInput request (remainingMs w (context.lower caps))
      (context.lower caps).responseBytes) = .answered a) :
    ∃ response, execute w caps input contextInput = some response ∧
      (Built w request a (.ofSuccess s) response ∨
        Interrupted w request (context.lower caps) a (.ofSuccess s) response) := by
  have hid := (requestId_of_parsed hrequest).1
  have hcap : (context.lower caps).responseBytes ≤ 1048576 :=
    (Nat.min_le_left _ _).trans (bounds_of_contextSchema hcontext).2
  have hdelivers : Delivers w request (context.lower caps) a (.ofSuccess s)
      (attempt w request (context.lower caps)) := by
    apply delivers_attempt hid hcap hread.searched hanswer hserved.result ?_
      fun response => passes_of_served hw hsha hregular hrequest hread hserved
    intro operation path range byteBudget hoperation hnil
    exact (hserved.fetched hread hoperation).1 (List.map_eq_nil_iff.mp hnil)
  unfold execute
  rw [hrequest, hcontext]
  dsimp only
  split
  · rename_i haborted
    exact ⟨_, errorResponse_eq_some hid _, .inr (.cancelled (.inl haborted))⟩
  · split
    · rename_i question anchors hoperation
      exact absurd hoperation (hread.searched question anchors)
    · obtain ⟨response, hattempt, hresponse⟩ := hdelivers
      rw [hattempt]
      exact ⟨response, rfl, hresponse⟩

end Delivered

/-- **A success of the worker is never lost in the envelope**: whatever `execute` builds of it passes
`parseResponse`, and nothing takes its place but the error of a cancellation, of a deadline that has passed,
or of a budget into which nothing fits that could be built. -/
theorem success_delivered {σ φ : Type} {w : World} {host : Host} {engine : Engine} {os : Worker.Os σ φ}
    {caps context : Context} {input contextInput : Json} {request : Request} {a : Answer} {s : Success}
    {r : SearchRequest} {sent : WorkerRequest} {t : Worker.Request} (hw : Standard w)
    (hsha : ∀ b, (host.sha256 b).length = 32) (hregular : Client.Regular engine)
    (hrequest : parseRequest input = some request) (hcontext : contextSchema contextInput = some context)
    (hserved : Served host engine os (searchInput request (remainingMs w (context.lower caps))
      (context.lower caps).responseBytes) a s r sent t)
    (hanswer : w.search (searchInput request (remainingMs w (context.lower caps))
      (context.lower caps).responseBytes) = .answered a) :
    (∀ response, Built w request a (.ofSuccess s) response →
      response.bytes w.dates ≤ (context.lower caps).responseBytes →
        parseResponse w.dates response request = some response) ∧
    ∃ response, execute w caps input contextInput = some response ∧
      (Built w request a (.ofSuccess s) response ∨
        Interrupted w request (context.lower caps) a (.ofSuccess s) response) := by
  have hread : ReadAs request r := by
    obtain ⟨events, signal, entry, promise, hasks, -⟩ := hserved.asked
    exact readAs_of_searchInput hasks.parsed
  have hcap : (context.lower caps).responseBytes ≤ 1048576 :=
    (Nat.min_le_left _ _).trans (bounds_of_contextSchema hcontext).2
  exact ⟨fun response hbuilt hbytes =>
      passes_of_served hw hsha hregular hrequest hread hserved hbuilt (hbytes.trans hcap),
    execute_of_served hw hsha hregular hrequest hcontext hread hserved hanswer⟩

/-- A search of the sample registration for a letter. -/
def sampleParsed : Request where
  requestId := units "r"
  workspaceId := Registry.sampleUuid 0
  scopePolicyId := Registry.sampleUuid 1
  narrow := none
  operation := .exact .literal (units "a") true 10

/-- The same as the caller writes it. -/
def sampleInput : Json :=
  objectOf [("version", some (.nat 1)), ("requestId", some (.str (units "r"))),
    ("workspaceId", some (.str (Registry.sampleUuid 0))),
    ("scopePolicyId", some (.str (Registry.sampleUuid 1))), ("operation", some (.str (units "exact"))),
    ("query", some (objectOf [("kind", some (.str (units "literal"))),
      ("text", some (.str (units "a"))), ("caseSensitive", some (.bool true))])),
    ("maxMatches", some (.nat 10))]

/-- A registry that answers at once. -/
def answeringWorld (a : Answer) : World :=
  { bareWorld (bareSuccess []) with search := fun _ => .answered a }

/-- What the worker finds for it in the tree with one file. -/
def sampleRun : Option Nat :=
  (Registry.searchSchema Registry.sampleHost (searchInput sampleParsed 10000 65536)).bind fun r =>
    (acceptInput (requestId 2) (Registry.searchInput ⟨[], [], false, true, 1048576⟩ r)).bind fun sent =>
      (fromSlice (requestBody sent 10000)).bind fun t =>
        (Worker.search Engine.plain Worker.oneFile.os Worker.oneFile t ⟨0, []⟩).1.toOption.map
          (·.hits.length)

theorem success_delivered_sample : ∃ a s response, s.hits.length = 1 ∧
    execute (answeringWorld a) ⟨30000, 1048576⟩ sampleInput (.obj []) = some response ∧
      (Built (answeringWorld a) sampleParsed a (.ofSuccess s) response ∨
        Interrupted (answeringWorld a) sampleParsed ⟨10000, 65536⟩ a (.ofSuccess s) response) := by
  have hrun : sampleRun = some 1 := by decide +kernel
  obtain ⟨r, hr, hrun⟩ := bind_some hrun
  obtain ⟨sent, hsent, hrun⟩ := bind_some hrun
  obtain ⟨t, ht, hrun⟩ := bind_some hrun
  have hdeadline : ∀ sent ∈ (Registry.searchSchema Registry.sampleHost
      (searchInput sampleParsed 10000 65536)).bind fun r =>
        acceptInput (requestId 2) (Registry.searchInput ⟨[], [], false, true, 1048576⟩ r),
      10000 ≤ sent.deadlineMs := by decide +kernel
  have hbefore : (Registry.after Registry.sampleHost Registry.sampleEvents).searches.length = 0 := by
    decide +kernel
  have hbehind : ((Registry.after Registry.sampleHost Registry.sampleEvents).step Registry.sampleHost
      (.search (searchInput sampleParsed 10000 65536) none)).searches.length = 1 := by decide +kernel
  have hpolicies : ∀ p ∈ (Registry.after Registry.sampleHost Registry.sampleEvents).entries,
      p.2.registration.policy = ⟨[], [], false, true, 1048576⟩ := by decide +kernel
  rcases (Registry.life_after Registry.sampleHost Registry.sampleEvents).asks
    (searchInput sampleParsed 10000 65536) none with hsame | hasks
  · rw [hsame, hbefore] at hbehind
    cases hbehind
  · obtain ⟨r', entry, hasks⟩ := hasks
    obtain rfl : r = r' := Option.some.inj (hr.symm.trans hasks.parsed)
    have hpolicy := hpolicies _ hasks.entry
    rcases h : Worker.search Engine.plain Worker.oneFile.os Worker.oneFile t ⟨0, []⟩ with ⟨code | s, w'⟩
    · rw [h] at hrun
      cases hrun
    · rw [h] at hrun
      set a := Registry.answerOf Registry.sampleHost
        { entry := entry, scope := Registry.searchScope entry.registration.policy r,
          promise := .resolved } (.ok (.ofSuccess s)) with ha
      have hserved : Served Registry.sampleHost Engine.plain Worker.oneFile.os
          (searchInput sampleParsed 10000 65536) a s r sent t := by
        refine ⟨⟨Registry.sampleEvents, none, entry, .resolved, hasks, ha⟩, ⟨2, ?_⟩, ⟨10000, ?_, ht⟩,
          Worker.oneFile, 0, w', h⟩
        · show acceptInput (requestId 2) (Registry.searchInput entry.registration.policy r) = some sent
          rw [hpolicy]
          exact hsent
        · exact hdeadline sent (some_bind hr hsent)
      have hw : Standard (answeringWorld a) :=
        ⟨Sha256.length_digest, fun _ => rfl⟩
      have hremaining : remainingMs (answeringWorld a) (Context.lower ⟨10000, 65536⟩ ⟨30000, 1048576⟩)
          = 10000 := by
        have hclock : ((10000 : Nat) * 1000000 - (0 - 0) : Int) / 1000000 = 10000 := by decide
        exact congrArg Int.toNat hclock
      have hcontext : contextSchema (.obj []) = some ⟨10000, 65536⟩ := by decide
      obtain ⟨response, hexecute, hresponse⟩ := (@success_delivered Nat Worker.Node (answeringWorld a)
        Registry.sampleHost Engine.plain Worker.oneFile.os ⟨30000, 1048576⟩ ⟨10000, 65536⟩ sampleInput
        (.obj []) sampleParsed a s r sent t hw Sha256.length_digest Client.regular_plain
        (by decide +kernel) hcontext (by rw [hremaining]; exact hserved) rfl).2
      exact ⟨a, s, response, Option.some.inj hrun, hexecute, hresponse⟩

end JevGrep.Service
