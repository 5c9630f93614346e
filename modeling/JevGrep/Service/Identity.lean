/-
# `JevGrep.Service.Identity` — what the fingerprints identify.

Policies, effective policies and evidence are named by the SHA-256 of a JSON text. Equal texts come from
equal values, and a policy's lists are canonical, so that the names are equal exactly when the
authority, or the evidence, is the same. SHA-256 itself is a parameter; the one thing asked of it is that
it does not collide on the two texts that are compared. §1 texts and their hashes; §2 policies;
§3 searches; §4 evidence.
-/
import JevGrep.Workspace.Grammar
import JevGrep.Service.Exact

namespace JevGrep.Service

open JevGrep.Lib JevGrep.Lib.Schema JevGrep.Lib.Utf16
open JevGrep.Contracts (JsString)
open JevGrep.Worker (Bytes)
open JevGrep.Client (strings objectOf rangeJson WorkerScope WorkerHit)
open JevGrep.Workspace (fingerprint hexDigest createPolicy policyInputSchema Policy Narrow policyHash
  effectivePolicyHash narrowPolicy canonicalPatterns canonicalPatterns_eq_iff SearchRequest Answer)
open JevGrep.Workspace.Registry (searchScope)

/-! ## §1 — texts and their hashes. -/

/-- `JSON.stringify(value)`, in the bytes that are hashed. -/
def textOf (value : Json) : Bytes := Utf8.encode (Json.print value)

/-- Two values have different hashes unless they have the same text. -/
def NoCollision (sha256 : Bytes → Bytes) (v w : Json) : Prop :=
  sha256 (textOf v) = sha256 (textOf w) → textOf v = textOf w

/-- `JSON.stringify` is injective: what it prints is read back. -/
theorem textOf_injective : Function.Injective textOf := by
  intro v w h
  have hprint : Json.print v = Json.print w := Utf8.encode_injective h
  have hparse : some v = some w := by
    rw [← Json.parse_print v, hprint, Json.parse_print]
  exact Option.some.inj hparse

/-- A digest is read back from its hexadecimal form. -/
theorem hexDigest_injective : Function.Injective hexDigest := fun _ _ h =>
  Json.hexDigits_injective (encode_injective h)

/-- **A fingerprint names its value.** -/
theorem fingerprint_eq_iff {sha256 : Bytes → Bytes} {v w : Json} (hfree : NoCollision sha256 v w) :
    fingerprint sha256 v = fingerprint sha256 w ↔ v = w := by
  constructor
  · intro h
    exact textOf_injective (hfree (hexDigest_injective h))
  · rintro rfl
    rfl

theorem strings_injective : Function.Injective strings := by
  intro items items' h
  exact List.map_injective_iff.2 (fun _ _ => Json.str.inj) (Json.arr.inj h)

/-! ## §2 — policies. -/

theorem policyJson_injective : Function.Injective Policy.json := by
  intro p p' h
  simp only [Policy.json, objectOf, List.filterMap_cons, Option.map_some, List.filterMap_nil,
    Json.obj.injEq, List.cons.injEq, Prod.mk.injEq, Json.bool.injEq, Json.nat.injEq, true_and,
    and_true] at h
  obtain ⟨hincludes, hexclude, hhidden, hignore, hbytes⟩ := h
  cases p
  cases p'
  congr 1
  · exact strings_injective hincludes
  · exact strings_injective hexclude

/-- Equal as sets. -/
def SameMembers (items items' : List JsString) : Prop := ∀ p, p ∈ items ↔ p ∈ items'

/-- **A policy hash names the policy**, with its lists as sets. -/
theorem policyHash_eq_iff {sha256 : Bytes → Bytes} {input input' : Json}
    {parsed parsed' policy policy' : Policy}
    (hparsed : policyInputSchema input = some parsed) (hparsed' : policyInputSchema input' = some parsed')
    (hpolicy : createPolicy input = some policy) (hpolicy' : createPolicy input' = some policy')
    (hfree : NoCollision sha256 policy.json policy'.json) :
    policyHash sha256 policy = policyHash sha256 policy' ↔
      SameMembers parsed.includes parsed'.includes ∧ SameMembers parsed.exclude parsed'.exclude
        ∧ parsed.hidden = parsed'.hidden ∧ parsed.respectIgnore = parsed'.respectIgnore
        ∧ parsed.maxFileBytes = parsed'.maxFileBytes := by
  rw [createPolicy, hparsed, Option.map_some, Option.some.injEq] at hpolicy
  rw [createPolicy, hparsed', Option.map_some, Option.some.injEq] at hpolicy'
  subst hpolicy hpolicy'
  rw [policyHash, policyHash, fingerprint_eq_iff hfree, policyJson_injective.eq_iff, Policy.mk.injEq]
  exact and_congr canonicalPatterns_eq_iff (and_congr_left' canonicalPatterns_eq_iff)

/-! ## §3 — searches. -/

theorem scopeJson_injective : Function.Injective WorkerScope.json := by
  intro s s' h
  simp only [WorkerScope.json, objectOf, List.filterMap_cons, Option.map_some, List.filterMap_nil,
    Json.obj.injEq, List.cons.injEq, Prod.mk.injEq, Json.bool.injEq, Json.arr.injEq, true_and,
    and_true] at h
  obtain ⟨hgroups, hexclude, hhidden, hignore⟩ := h
  cases s
  cases s'
  congr 1
  · exact List.map_injective_iff.2 strings_injective hgroups
  · exact strings_injective hexclude

/-- The narrowing of a search request. -/
def narrowing (request : SearchRequest) : Narrow := request.narrow.getD Narrow.none

/-- The value whose fingerprint is an effective policy hash. -/
def effectiveJson (policyHash : JsString) (scope : WorkerScope) : Json :=
  objectOf [("version", some (.nat 1)), ("policyHash", some (.str policyHash)),
    ("scope", some scope.json)]

theorem effectiveJson_eq_iff {hash hash' : JsString} {scope scope' : WorkerScope} :
    effectiveJson hash scope = effectiveJson hash' scope' ↔ hash = hash' ∧ scope = scope' := by
  simp only [effectiveJson, objectOf, List.filterMap_cons, Option.map_some, List.filterMap_nil,
    Json.obj.injEq, List.cons.injEq, Prod.mk.injEq, Json.str.injEq, true_and, and_true,
    scopeJson_injective.eq_iff]

/-- **An effective policy hash names the authority of a search**: the registered policy, the files a
narrowing selects, and all that is excluded. -/
theorem effectivePolicyHash_eq_iff {sha256 : Bytes → Bytes} {policy policy' : Policy}
    {narrow narrow' : Narrow} (hfree : NoCollision sha256 policy.json policy'.json)
    (hfree' : NoCollision sha256 (effectiveJson (policyHash sha256 policy) (narrowPolicy policy narrow))
      (effectiveJson (policyHash sha256 policy') (narrowPolicy policy' narrow'))) :
    effectivePolicyHash sha256 (policyHash sha256 policy) (narrowPolicy policy narrow)
        = effectivePolicyHash sha256 (policyHash sha256 policy') (narrowPolicy policy' narrow') ↔
      policyHash sha256 policy = policyHash sha256 policy'
        ∧ SameMembers narrow.includes narrow'.includes
        ∧ SameMembers (policy.exclude ++ narrow.exclude) (policy'.exclude ++ narrow'.exclude) := by
  have hvalue : effectivePolicyHash sha256 (policyHash sha256 policy) (narrowPolicy policy narrow)
        = effectivePolicyHash sha256 (policyHash sha256 policy') (narrowPolicy policy' narrow') ↔
      policyHash sha256 policy = policyHash sha256 policy' ∧
        narrowPolicy policy narrow = narrowPolicy policy' narrow' :=
    (fingerprint_eq_iff hfree').trans effectiveJson_eq_iff
  rw [hvalue]
  refine and_congr_right fun hhash => ?_
  -- equal policy hashes are hashes of one policy
  obtain rfl : policy = policy' := policyJson_injective ((fingerprint_eq_iff hfree).1 hhash)
  simp only [narrowPolicy, WorkerScope.mk.injEq, List.cons.injEq, true_and, and_true,
    canonicalPatterns_eq_iff]
  rfl

/-! ## §4 — evidence. -/

/-- The value whose fingerprint is an evidence id. -/
def evidenceJson (a : Answer) (hit : WorkerHit) : Json :=
  objectOf [("version", some (.nat 1)), ("workspaceId", some (.str a.workspaceId)),
    ("policyHash", some (.str a.policyHash)), ("path", some (.str hit.path)),
    ("fileSha256", some (.str hit.fileSha256)), ("range", some (rangeJson hit.range))]

/-- **An evidence id names a range of a revision of a file under a policy**, whichever operation it was
produced by. -/
theorem evidenceId_eq_iff {sha256 : Bytes → Bytes} {a a' : Answer} {hit hit' : WorkerHit}
    (hfree : NoCollision sha256 (evidenceJson a hit) (evidenceJson a' hit')) :
    (evidence sha256 a hit).id = (evidence sha256 a' hit').id ↔
      a.workspaceId = a'.workspaceId ∧ a.policyHash = a'.policyHash ∧ hit.path = hit'.path
        ∧ hit.fileSha256 = hit'.fileSha256 ∧ hit.range.start = hit'.range.start
        ∧ hit.range.stop = hit'.range.stop := by
  have hvalue : (evidence sha256 a hit).id = (evidence sha256 a' hit').id ↔
      evidenceJson a hit = evidenceJson a' hit' := fingerprint_eq_iff hfree
  rw [hvalue]
  simp only [evidenceJson, rangeJson, objectOf, List.filterMap_cons, Option.map_some,
    List.filterMap_nil, Json.obj.injEq, List.cons.injEq, Prod.mk.injEq, Json.str.injEq, Json.nat.injEq,
    true_and, and_true]

/-- **Identities are canonical and distinguish authority**, as far as SHA-256 does not collide on the
texts that are compared. -/
theorem identities_canonical (sha256 : Bytes → Bytes) :
    (∀ (input input' : Json) (parsed parsed' policy policy' : Policy),
      policyInputSchema input = some parsed → policyInputSchema input' = some parsed' →
      createPolicy input = some policy → createPolicy input' = some policy' →
      NoCollision sha256 policy.json policy'.json →
        (policyHash sha256 policy = policyHash sha256 policy' ↔
          SameMembers parsed.includes parsed'.includes ∧ SameMembers parsed.exclude parsed'.exclude
            ∧ parsed.hidden = parsed'.hidden ∧ parsed.respectIgnore = parsed'.respectIgnore
            ∧ parsed.maxFileBytes = parsed'.maxFileBytes))
    ∧ (∀ (policy policy' : Policy) (request request' : SearchRequest),
      NoCollision sha256 policy.json policy'.json →
      NoCollision sha256 (effectiveJson (policyHash sha256 policy) (searchScope policy request))
        (effectiveJson (policyHash sha256 policy') (searchScope policy' request')) →
        (effectivePolicyHash sha256 (policyHash sha256 policy) (searchScope policy request)
            = effectivePolicyHash sha256 (policyHash sha256 policy') (searchScope policy' request') ↔
          policyHash sha256 policy = policyHash sha256 policy'
            ∧ SameMembers (narrowing request).includes (narrowing request').includes
            ∧ SameMembers (policy.exclude ++ (narrowing request).exclude)
                (policy'.exclude ++ (narrowing request').exclude)))
    ∧ ∀ (a a' : Answer) (hit hit' : WorkerHit),
      NoCollision sha256 (evidenceJson a hit) (evidenceJson a' hit') →
        ((evidence sha256 a hit).id = (evidence sha256 a' hit').id ↔
          a.workspaceId = a'.workspaceId ∧ a.policyHash = a'.policyHash ∧ hit.path = hit'.path
            ∧ hit.fileSha256 = hit'.fileSha256 ∧ hit.range.start = hit'.range.start
            ∧ hit.range.stop = hit'.range.stop) := by
  refine ⟨?_, ?_, ?_⟩
  · intro input input' parsed parsed' policy policy' hparsed hparsed' hpolicy hpolicy' hfree
    exact policyHash_eq_iff hparsed hparsed' hpolicy hpolicy' hfree
  · intro policy policy' request request' hfree hfree'
    exact effectivePolicyHash_eq_iff hfree hfree'
  · intro a a' hit hit' hfree
    exact evidenceId_eq_iff hfree

/-- The digest with this big-endian value. -/
def digestOf (n : Nat) : Bytes := (List.range 32).map fun i => UInt8.ofNat (n >>> (8 * (31 - i)))

/-- SHA-256 on the six texts of the sample below, which differ in length. -/
def sampleSha256 (text : Bytes) : Bytes :=
  match text.length with
  | 275 => digestOf 0x83798a68648eb1d0a418ad8bbba8fb56b2edc93409e29d6df55f63465cc7dce9
  | 271 => digestOf 0x562d9c4f976e8592a355343b73a1102da00982023716a1317810b3a117e18250
  | 191 => digestOf 0x9ac25d62596a457599f87b91e1d8754bfc33a010cc7a45113b5d957f87dfd449
  | 183 => digestOf 0xec3ecfa7816903242b4f16e4cc7ab1cd9cfdf39f65424ec6238debbe955c8e3e
  | 230 => digestOf 0x253f723b428f492182a12eb650c8b457048be650e8e73921be61d17b8f699e82
  | _ => digestOf 0xb2b6ba5686e09d1ed98bdddd4c8d48d4c83daf94b055a60e4cb7ffa2725e2692

/-- Values whose texts have different sample digests. -/
theorem noCollision_of_ne {v w : Json} (h : sampleSha256 (textOf v) ≠ sampleSha256 (textOf w)) :
    NoCollision sampleSha256 v w := fun heq => absurd heq h

/-- A policy with the given `include`, and a request with the given `narrow`. -/
def samplePolicy (includes : List JsString) : Policy := ⟨includes, [], false, true, 1048576⟩

def sampleRequest (narrow : Option Narrow) : SearchRequest where
  workspaceId := units "w"
  scopePolicyId := units "p"
  pattern := units "a"
  kind := .literal
  caseSensitive := true
  maxMatches := 10
  deadlineMs := 10000
  read := none
  responseBytes := 65536
  narrow := narrow

/-- An answer for a registration of a sample policy. -/
def sampleAnswer (includes : List JsString) (narrow : Option Narrow) : Answer where
  workspaceId := units "w"
  scopePolicyId := units "p"
  policyHash := policyHash sampleSha256 (samplePolicy includes)
  effectivePolicyHash := effectivePolicyHash sampleSha256 (policyHash sampleSha256 (samplePolicy includes))
    (searchScope (samplePolicy includes) (sampleRequest narrow))
  policy := samplePolicy includes
  scope := searchScope (samplePolicy includes) (sampleRequest narrow)
  result := .error (units "1") .readFailed

/-- A hit at the start of the file `a`. -/
def sampleHit (stop : Nat) : WorkerHit where
  path := units "a"
  range := ⟨0, stop⟩
  excerpt := ⟨⟨0, stop⟩, [], false⟩
  fileSha256 := List.replicate 64 (unit '0')

/-- Another pattern is another policy, a narrowing is another authority, and another range is another
piece of evidence. -/
theorem identities_canonical_sample :
    policyHash sampleSha256 (samplePolicy [units "a", units "b"])
        ≠ policyHash sampleSha256 (samplePolicy [units "a"])
      ∧ effectivePolicyHash sampleSha256
          (policyHash sampleSha256 (samplePolicy [units "a", units "b"]))
          (searchScope (samplePolicy [units "a", units "b"])
            (sampleRequest (some ⟨[units "src/**"], []⟩)))
        ≠ effectivePolicyHash sampleSha256
          (policyHash sampleSha256 (samplePolicy [units "a", units "b"]))
          (searchScope (samplePolicy [units "a", units "b"]) (sampleRequest none))
      ∧ (evidence sampleSha256 (sampleAnswer [units "a", units "b"] none) (sampleHit 1)).id
        ≠ (evidence sampleSha256 (sampleAnswer [units "a", units "b"] none) (sampleHit 22)).id := by
  obtain ⟨hpolicies, hsearches, hevidence⟩ := identities_canonical sampleSha256
  refine ⟨?_, ?_, ?_⟩
  · have hiff := hpolicies
      (.obj [(units "include", strings [units "b", units "a", units "b"])])
      (.obj [(units "include", strings [units "a"])])
      (samplePolicy [units "b", units "a", units "b"]) (samplePolicy [units "a"])
      (samplePolicy [units "a", units "b"]) (samplePolicy [units "a"])
      (by decide +kernel) (by decide +kernel) (by decide +kernel) (by decide +kernel)
      (noCollision_of_ne (by decide +kernel))
    intro heq
    have hmem := ((hiff.1 heq).1 (units "b")).1 (by decide)
    exact absurd hmem (by decide)
  · have hiff := hsearches (samplePolicy [units "a", units "b"]) (samplePolicy [units "a", units "b"])
      (sampleRequest (some ⟨[units "src/**"], []⟩)) (sampleRequest none)
      (fun _ => rfl) (noCollision_of_ne (by decide +kernel))
    intro heq
    have hmem := ((hiff.1 heq).2.1 (units "src/**")).1 (by decide)
    exact absurd hmem (by decide)
  · have hiff := hevidence (sampleAnswer [units "a", units "b"] none)
      (sampleAnswer [units "a", units "b"] none) (sampleHit 1) (sampleHit 22)
      (noCollision_of_ne (by decide +kernel))
    intro heq
    exact absurd (hiff.1 heq).2.2.2.2.2 (by decide)

end JevGrep.Service
