/-
# `JevGrep.Workspace.Policy` — registered policies and their narrowing.

`src/workspace/policy.ts`: the pattern check, the two input schemas, `createPolicy` and
`narrowPolicy`. A canonical pattern list is sorted and free of duplicates; a narrowing adds an include
group and excludes, and touches nothing else. SHA-256 is a parameter.
-/
import JevGrep.Lib.Canonical
import JevGrep.Client.NativeWorker

namespace JevGrep.Workspace

open JevGrep.Lib JevGrep.Lib.Schema JevGrep.Lib.Utf16
open JevGrep.Contracts (JsString)
open JevGrep.Worker (Bytes)
open JevGrep.Client (objectOf strings WorkerScope)

/-! ## §1 — pattern lists. -/

/-- The characters `[\\\0\r\n]`. -/
def forbiddenUnit (u : UInt16) : Bool :=
  u == unit '\\' || u == unit '\x00' || u == unit '\r' || u == unit '\n'

/-- The pattern check of `policy.ts`. -/
def isPattern (p : JsString) : Bool :=
  1 ≤ p.length && p.length ≤ 1024 && isWellFormed p && byteLength p ≤ 1024
    && !(p.head? == some (unit '!') || p.head? == some (unit '/') || p.any forbiddenUnit)
    && !(p.splitOn (unit '/')).any fun s => s == [] || s == units "." || s == units ".."

/-- `patterns`. -/
def patternsSchema (v : Json) : Option (List JsString) :=
  array (fun v => (string v).filter isPattern) 64 v

/-- The order of `Array.prototype.sort` on strings: by code units. -/
def unitsLe : JsString → JsString → Bool
  | [], _ => true
  | _ :: _, [] => false
  | a :: as, b :: bs => a.toNat < b.toNat || (a == b && unitsLe as bs)

/-- `[...new Set(values)].sort()`. -/
def canonicalPatterns (values : List JsString) : List JsString :=
  values.eraseDups.insertionSort fun a b => unitsLe a b = true

theorem mem_canonicalPatterns {values : List JsString} {p : JsString} :
    p ∈ canonicalPatterns values ↔ p ∈ values := by
  rw [canonicalPatterns, List.mem_insertionSort, List.mem_eraseDups]

theorem canonicalPatterns_eq_nil {values : List JsString} :
    canonicalPatterns values = [] ↔ values = [] := by
  simp only [List.eq_nil_iff_forall_not_mem, mem_canonicalPatterns]

theorem unitsLe_total (a b : JsString) : unitsLe a b = true ∨ unitsLe b a = true := by
  induction a generalizing b with
  | nil => exact .inl rfl
  | cons x as ih =>
    cases b with
    | nil => exact .inr rfl
    | cons y bs =>
      simp only [unitsLe, Bool.or_eq_true, Bool.and_eq_true, decide_eq_true_iff, beq_iff_eq]
      rcases Nat.lt_trichotomy x.toNat y.toNat with hlt | heq | hlt
      · exact .inl (.inl hlt)
      · have hxy : x = y := UInt16.toNat_inj.1 heq
        rcases ih bs with hle | hle
        · exact .inl (.inr ⟨hxy, hle⟩)
        · exact .inr (.inr ⟨hxy.symm, hle⟩)
      · exact .inr (.inl hlt)

theorem unitsLe_trans {a b c : JsString} (hab : unitsLe a b = true) (hbc : unitsLe b c = true) :
    unitsLe a c = true := by
  induction a generalizing b c with
  | nil => rfl
  | cons x as ih =>
    cases b with
    | nil => cases hab
    | cons y bs =>
      cases c with
      | nil => cases hbc
      | cons z cs =>
        simp only [unitsLe, Bool.or_eq_true, Bool.and_eq_true, decide_eq_true_iff, beq_iff_eq] at *
        rcases hab with hxy | ⟨rfl, hab⟩
        · rcases hbc with hyz | ⟨rfl, -⟩
          · exact .inl (hxy.trans hyz)
          · exact .inl hxy
        · rcases hbc with hyz | ⟨rfl, hbc⟩
          · exact .inl hyz
          · exact .inr ⟨rfl, ih hab hbc⟩

theorem unitsLe_antisymm {a b : JsString} (hab : unitsLe a b = true) (hba : unitsLe b a = true) :
    a = b := by
  induction a generalizing b with
  | nil =>
    cases b with
    | nil => rfl
    | cons y bs => cases hba
  | cons x as ih =>
    cases b with
    | nil => cases hab
    | cons y bs =>
      simp only [unitsLe, Bool.or_eq_true, Bool.and_eq_true, decide_eq_true_iff, beq_iff_eq] at hab hba
      rcases hab with hxy | ⟨rfl, hab⟩
      · rcases hba with hyx | ⟨rfl, -⟩
        · omega
        · exact absurd hxy (Nat.lt_irrefl _)
      · rcases hba with hyx | ⟨-, hba⟩
        · exact absurd hyx (Nat.lt_irrefl _)
        · rw [ih hab hba]

instance : Std.Total fun a b : JsString => unitsLe a b = true := ⟨unitsLe_total⟩

instance : IsTrans JsString fun a b => unitsLe a b = true := ⟨fun _ _ _ => unitsLe_trans⟩

instance : Std.Antisymm fun a b : JsString => unitsLe a b = true := ⟨fun _ _ => unitsLe_antisymm⟩

/-- Canonical lists are equal as soon as they are equal as sets. -/
theorem canonicalPatterns_eq_iff {values values' : List JsString} :
    canonicalPatterns values = canonicalPatterns values' ↔ ∀ p, p ∈ values ↔ p ∈ values' :=
  Canonical.canonical_eq_iff _

theorem length_canonicalPatterns_le (values : List JsString) :
    (canonicalPatterns values).length ≤ values.length :=
  Canonical.length_canonical_le _ values

/-! ## §2 — policies. -/

/-- The fields of `Policy` that vary; `json` has the constant ones. -/
structure Policy where
  includes : List JsString
  exclude : List JsString
  hidden : Bool
  respectIgnore : Bool
  maxFileBytes : Nat
  deriving DecidableEq

/-- `NarrowSchema`. -/
structure Narrow where
  includes : List JsString
  exclude : List JsString
  deriving DecidableEq

/-- The member under a name, or a default where it is absent. -/
def withDefault {α : Type} (members : List (List UInt16 × Json)) (name : String) (default : α)
    (read : Json → Option α) : Option α :=
  (optional members name read).map (·.getD default)

/-- `PolicyInputSchema`. -/
def policyInputSchema (v : Json) : Option Policy := do
  let o ← strictObject ["include", "exclude", "hidden", "respectIgnore", "maxFileBytes"] v
  let includes ← withDefault o "include" [] patternsSchema
  let exclude ← withDefault o "exclude" [] patternsSchema
  let hidden ← withDefault o "hidden" false bool
  let respectIgnore ← withDefault o "respectIgnore" true bool
  let maxFileBytes ← withDefault o "maxFileBytes" 1048576 (int 1 16777216)
  return { includes, exclude, hidden, respectIgnore, maxFileBytes }

/-- `NarrowSchema`. -/
def narrowSchema (v : Json) : Option Narrow := do
  let o ← strictObject ["include", "exclude"] v
  let includes ← required o "include" patternsSchema
  let exclude ← required o "exclude" patternsSchema
  return { includes, exclude }

/-- The policy object as `JSON.stringify` sees it. -/
def Policy.json (p : Policy) : Json :=
  objectOf [("version", some (.nat 1)),
    ("dialect", some (.str (units "globset-0.4.20-root-relative"))),
    ("ignoreDialect", some (.str (units "ignore-0.4.33-workspace-only"))),
    ("include", some (strings p.includes)), ("exclude", some (strings p.exclude)),
    ("hidden", some (.bool p.hidden)), ("respectIgnore", some (.bool p.respectIgnore)),
    ("maxFileBytes", some (.nat p.maxFileBytes)), ("symlinks", some (.str (units "reject"))),
    ("encoding", some (.str (units "utf-8"))),
    ("excludedDirectories", some (strings [units ".git", units ".jev-grep"]))]

/-- Lowercase hexadecimal, two digits a byte. -/
def hexDigest (bytes : Bytes) : JsString :=
  encode (bytes.flatMap fun b => [Json.hexDigit (b.toNat / 16), Json.hexDigit (b.toNat % 16)])

/-- `fingerprint`. -/
def fingerprint (sha256 : Bytes → Bytes) (value : Json) : JsString :=
  hexDigest (sha256 (Utf8.encode (Json.print value)))

/-- `createPolicy`; `none` is a thrown error. -/
def createPolicy (input : Json) : Option Policy :=
  (policyInputSchema input).map fun parsed =>
    { parsed with
      includes := canonicalPatterns parsed.includes
      exclude := canonicalPatterns parsed.exclude }

/-- The policy hash that `createPolicy` returns with the policy. -/
def policyHash (sha256 : Bytes → Bytes) (p : Policy) : JsString := fingerprint sha256 p.json

/-- `narrowPolicy` of a parsed narrowing. -/
def narrowPolicy (policy : Policy) (narrow : Narrow) : WorkerScope where
  includeGroups := [policy.includes, canonicalPatterns narrow.includes]
  exclude := canonicalPatterns (policy.exclude ++ narrow.exclude)
  hidden := policy.hidden
  respectIgnore := policy.respectIgnore

/-- The default argument of `narrowPolicy`. -/
def Narrow.none : Narrow := ⟨[], []⟩

/-- `fingerprint({ version: 1, policyHash, scope })`. -/
def effectivePolicyHash (sha256 : Bytes → Bytes) (policyHash : JsString) (scope : WorkerScope) :
    JsString :=
  fingerprint sha256 (objectOf [("version", some (.nat 1)), ("policyHash", some (.str policyHash)),
    ("scope", some scope.json)])

end JevGrep.Workspace
