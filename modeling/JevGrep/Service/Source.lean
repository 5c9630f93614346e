/-
# `JevGrep.Service.Source` — evidence can be checked against the captured file.

`assertEvidenceSource` of `src/contracts/validation.ts`, and that it accepts whatever `search_file`
pushes: the worker cuts a file by Rust's character boundaries, the check looks for continuation bytes,
and both agree on every text. §1 the check; §2 well cut hits pass it; §3 the hits of `search_file`.
-/
import JevGrep.Client.Accept
import JevGrep.Service.Contract

namespace JevGrep.Service

open JevGrep.Lib JevGrep.Lib.Schema
open JevGrep.Lib.Utf16 (encode byteLength byteLength_encode isWellFormed isWellFormed_encode points Point
  utf8Len)
open JevGrep.Contracts (JsString pathSchema)
open JevGrep.Worker (Bytes Engine Hit Range Str Job State Work WellCut Sliceable isText hex)
open JevGrep.Client (pathString digestSchema rangeSchema excerptSchema WorkerHit)
open JevGrep.Workspace (hexDigest)

/-! ## §1 — the check. -/

/-- `EvidenceSchema`, read from a value. -/
def readEvidence (v : Json) : Option Evidence := do
  let o ← strictObject ["id", "path", "fileSha256", "range", "excerpt"] v
  let id ← required o "id" idSchema
  let path ← required o "path" pathString
  let fileSha256 ← required o "fileSha256" digestSchema
  let range ← required o "range" rangeSchema
  let excerpt ← required o "excerpt" excerptSchema
  return { id, path, fileSha256, range, excerpt }

/-- `Buffer.from(text, 'utf8')`. -/
def utf8Bytes (text : JsString) : Bytes :=
  (points text).flatMap fun p =>
    match p with
    | .scalar c => Utf8.encodeChar c
    | .lone _ => [0xef, 0xbf, 0xbd]

/-- `byte === undefined || (byte & 0xc0) !== 0x80`. -/
def boundaryAt (captured : Bytes) (offset : Nat) : Bool :=
  match captured[offset]? with
  | none => true
  | some byte => byte &&& 0xc0 != 0x80

/-- The invariants of `assertEvidenceSource` behind the shape of the evidence. -/
def sourceInvariants (sha256 : Bytes → Bytes) (e : Evidence) (captured : Bytes) : Bool :=
  captured.length ≤ 16777216
    && hexDigest (sha256 captured) == e.fileSha256
    && (Utf8.decode captured).isSome
    && !captured.contains 0
    && [e.range, e.excerpt.range].all (fun r =>
      r.stop ≤ captured.length && [r.start, r.stop].all (boundaryAt captured))
    && (captured.take e.excerpt.range.stop).drop e.excerpt.range.start == utf8Bytes e.excerpt.text

/-- `assertEvidenceSource`; `none` is a thrown error. -/
def assertEvidenceSource (sha256 : Bytes → Bytes) (input : Json) (captured : Bytes) :
    Option Evidence :=
  (readEvidence input).filter fun e => evidenceShape e && sourceInvariants sha256 e captured

/-- `{ id, ...hit }`. -/
def withId (id : JsString) : Json → Json
  | .obj members => .obj ((units "id", .str id) :: members)
  | v => v

/-! ## §2 — well cut hits pass it. -/

theorem and_continuation (byte : UInt8) :
    (byte &&& 0xc0 != 0x80) = !Utf8.isContinuation byte := by
  have hall : ∀ n < 256, (UInt8.ofNat n &&& 0xc0 != 0x80) = !Utf8.isContinuation (UInt8.ofNat n) := by
    decide +kernel
  have h := hall byte.toNat byte.toNat_lt
  rwa [UInt8.ofNat_toNat] at h

/-- A byte position between two scalar values of a text, or at its end. -/
def ScalarBoundary (bytes : Bytes) (i : Nat) : Prop :=
  ∃ pre post, bytes = Utf8.encode (pre ++ post) ∧ (Utf8.encode pre).length = i

/-- **The bit mask finds the boundaries of a text, and only them.** -/
theorem boundaryAt_iff {cs : Str} {i : Nat} (hi : i ≤ (Utf8.encode cs).length) :
    boundaryAt (Utf8.encode cs) i = true ↔ ScalarBoundary (Utf8.encode cs) i := by
  have hsplit : ScalarBoundary (Utf8.encode cs) i ↔
      ∃ pre post, cs = pre ++ post ∧ (Utf8.encode pre).length = i := by
    constructor
    · rintro ⟨pre, post, heq, hlen⟩
      exact ⟨pre, post, Utf8.encode_injective heq, hlen⟩
    · rintro ⟨pre, post, heq, hlen⟩
      exact ⟨pre, post, congrArg Utf8.encode heq, hlen⟩
  rw [hsplit, Utf8.boundary_iff, boundaryAt]
  rcases hget : (Utf8.encode cs)[i]? with _ | byte
  · -- no byte there: the end of the text
    have hend : i = (Utf8.encode cs).length := Nat.le_antisymm hi (List.getElem?_eq_none_iff.1 hget)
    exact ⟨fun _ => .inl hend, fun _ => rfl⟩
  · have hlt : i < (Utf8.encode cs).length := (List.getElem?_eq_some_iff.1 hget).1
    show (byte &&& 0xc0 != 0x80) = true ↔ _
    rw [and_continuation, Bool.not_eq_true']
    constructor
    · intro hcont
      exact .inr ⟨byte, rfl, hcont⟩
    · rintro (hend | ⟨b, hb, hcont⟩)
      · exact absurd hend (Nat.ne_of_lt hlt)
      · rw [Option.some.inj hb, hcont]

/-- The check finds a boundary wherever the worker does. -/
theorem boundaryAt_of_isCharBoundary {bytes : Bytes} {i : Nat} (htext : isText bytes = true)
    (h : Worker.isCharBoundary bytes i = true) : boundaryAt bytes i = true := by
  obtain ⟨-, cs, rfl⟩ := Worker.isText_iff.1 htext
  apply (boundaryAt_iff (Worker.le_of_isCharBoundary h)).2
  obtain ⟨pre, post, rfl, hlen⟩ := Worker.isCharBoundary_iff.1 h
  exact ⟨pre, post, rfl, hlen⟩

theorem utf8Bytes_encode (cs : Str) : utf8Bytes (encode cs) = Utf8.encode cs := by
  rw [utf8Bytes, Utf16.points_encode, List.flatMap_map]
  rfl

/-- The evidence that a hit becomes. -/
def Evidence.ofHit (id : JsString) (h : Hit) : Evidence where
  id := id
  path := encode h.path
  fileSha256 := encode h.fileSha256
  range := h.range
  excerpt := .ofExcerpt h.excerpt

section Pass

variable {engine : Engine} {bytes : Bytes} {hit : Hit} {id : JsString}

theorem readEvidence_json (hsha : ∀ b, (engine.sha256 b).length = 32) (hid : isId id = true)
    (h : WellCut engine bytes hit) (htext : isText bytes = true) (hlen : bytes.length ≤ 16777216) :
    readEvidence (withId id hit.json) = some (.ofHit id hit) := by
  have hjson : withId id hit.json = .obj (named [("id", .str id), ("path", Worker.strJson hit.path),
      ("fileSha256", Worker.strJson hit.fileSha256), ("range", hit.range.json),
      ("excerpt", hit.excerpt.json)]) := rfl
  have hb := Client.inBounds_of_wellCut h htext hlen
  have hmax : 16777216 ≤ MAX_SAFE_INTEGER := by decide
  have hrange := hb.range
  have hexcerpt := hb.excerpt
  have hi : idSchema (.str id) = some id := if_pos hid
  have hd : digestSchema (Worker.strJson hit.fileSha256) = some (encode hit.fileSha256) := by
    rw [h.digest]
    exact Client.digestSchema_hex (hsha bytes)
  have hr : rangeSchema hit.range.json = some hit.range :=
    Client.rangeSchema_json (by omega) (by omega)
  have he : excerptSchema hit.excerpt.json = some (.ofExcerpt hit.excerpt) :=
    Client.excerptSchema_json (by omega) (by omega) (hb.text.trans_le hb.short)
  rw [hjson]
  refine some_bind (strictObject_named (by simp)) ?_
  refine some_bind (required_named (by simp) (by simp) hi) ?_
  refine some_bind (required_named (by simp) (by simp) (Client.pathString_strJson h.path)) ?_
  refine some_bind (required_named (by simp) (by simp) hd) ?_
  refine some_bind (required_named (by simp) (by simp) hr) ?_
  exact some_bind (required_named (by simp) (by simp) he) rfl

theorem evidenceShape_ofHit (h : WellCut engine bytes hit) (htext : isText bytes = true)
    (hlen : bytes.length ≤ 16777216) : evidenceShape (.ofHit id hit) = true := by
  have hb := Client.inBounds_of_wellCut h htext hlen
  have hlast := hb.excerpt.2
  have hpath : utf8Len hit.path ≤ 4096 := Client.utf8Len_of_validPath h.path
  have hshort : utf8Len hit.excerpt.text ≤ 4096 := hb.text.trans_le hb.short
  have htexts : ∀ {cs : Str}, utf8Len cs ≤ 4096 → byteText (encode cs) 4096 = true := fun {cs} hcs => by
    rw [byteText, isWellFormed_encode, byteLength_encode, Bool.true_and]
    exact decide_eq_true hcs
  have hlength : byteLength (encode hit.excerpt.text)
      = hit.excerpt.range.stop - hit.excerpt.range.start := by
    rw [byteLength_encode]
    exact hb.text
  -- the excerpt starts with the match, so it shows all of it exactly when it ends with it
  have hshown : hit.excerpt.truncated
      = !(decide (hit.excerpt.range.start ≤ hit.range.start)
        && decide (hit.range.stop ≤ hit.excerpt.range.stop)) := by
    rw [h.truncated]
    by_cases heq : hit.excerpt.range.stop = hit.range.stop
    · simp [heq, h.first]
    · have hlt : hit.excerpt.range.stop < hit.range.stop := Nat.lt_of_le_of_ne hlast heq
      simp [heq, hlt]
  show (byteText (encode hit.path) 4096 && byteText (encode hit.excerpt.text) 4096
    && decide (hit.range.start ≤ hit.range.stop)
    && decide (hit.excerpt.range.start ≤ hit.excerpt.range.stop)
    && byteLength (encode hit.excerpt.text) == hit.excerpt.range.stop - hit.excerpt.range.start
    && hit.excerpt.truncated == !(decide (hit.excerpt.range.start ≤ hit.range.start)
        && decide (hit.range.stop ≤ hit.excerpt.range.stop))) = true
  rw [htexts hpath, htexts hshort, hlength, ← hshown, decide_eq_true hb.range.1,
    decide_eq_true hb.excerpt.1, beq_self_eq_true, beq_self_eq_true]
  rfl

theorem sourceInvariants_ofHit (h : WellCut engine bytes hit) (htext : isText bytes = true)
    (hlen : bytes.length ≤ 16777216) :
    sourceInvariants engine.sha256 (.ofHit id hit) bytes = true := by
  have hb := Client.inBounds_of_wellCut h htext hlen
  have hbound : ∀ {i : Nat}, Worker.isCharBoundary bytes i = true → boundaryAt bytes i = true :=
    fun hi => boundaryAt_of_isCharBoundary htext hi
  have hdigest : hexDigest (engine.sha256 bytes) = encode hit.fileSha256 := by
    rw [h.digest]
    rfl
  have hsome : (Utf8.decode bytes).isSome = true ∧ bytes.contains 0 = false := by
    rw [isText, Bool.and_eq_true, Bool.not_eq_true'] at htext
    exact ⟨htext.2, htext.1⟩
  have hrange : ∀ r ∈ [hit.range, hit.excerpt.range], r.stop ≤ bytes.length ∧
      boundaryAt bytes r.start = true ∧ boundaryAt bytes r.stop = true := by
    intro r hr
    rcases List.mem_cons.1 hr with rfl | hr
    · exact ⟨h.stop_le, hbound h.range.first, hbound h.range.last⟩
    · rw [List.mem_singleton.1 hr]
      exact ⟨Worker.le_of_isCharBoundary h.excerpt.last, hbound h.excerpt.first,
        hbound h.excerpt.last⟩
  have htextBytes : (bytes.take hit.excerpt.range.stop).drop hit.excerpt.range.start
      = utf8Bytes (encode hit.excerpt.text) := by
    rw [utf8Bytes_encode, h.encode_text htext]
  simp only [sourceInvariants, Evidence.ofHit, Client.WorkerExcerpt.ofExcerpt, hdigest, hsome.1,
    hsome.2, htextBytes, hlen, decide_true, beq_self_eq_true, Bool.true_and, Bool.not_false,
    Bool.and_true]
  refine List.all_eq_true.2 fun r hr => ?_
  obtain ⟨h₁, h₂, h₃⟩ := hrange r hr
  simp [h₁, h₂, h₃]

/-- **A well cut hit passes the check against its file.** -/
theorem assertEvidenceSource_hit (hsha : ∀ b, (engine.sha256 b).length = 32) (hid : isId id = true)
    (h : WellCut engine bytes hit) (htext : isText bytes = true) (hlen : bytes.length ≤ 16777216) :
    assertEvidenceSource engine.sha256 (withId id hit.json) bytes = some (.ofHit id hit) := by
  rw [assertEvidenceSource, readEvidence_json hsha hid h htext hlen, Option.filter_some, if_pos]
  rw [evidenceShape_ofHit h htext hlen, sourceInvariants_ofHit h htext hlen]
  rfl

end Pass

/-! ## §3 — the hits of `search_file`. -/

/-- What can be checked of a hit against the file it comes from. -/
structure Verifiable (engine : Engine) (bytes : Bytes) (hit : Hit) : Prop where
  /-- Serialized, parsed and given an id, the hit is accepted as it is. -/
  accepted : ∀ id, isId id = true → ∃ v, Json.parse (Json.print hit.json) = some v ∧
    assertEvidenceSource engine.sha256 (withId id v) bytes = some (.ofHit id hit)
  digest : hit.fileSha256 = hex (engine.sha256 bytes)
  /-- Both ranges lie in the file, on character boundaries. -/
  range : Sliceable bytes hit.range.start hit.range.stop ∧ hit.range.stop ≤ bytes.length
  excerpt : Sliceable bytes hit.excerpt.range.start hit.excerpt.range.stop ∧
    hit.excerpt.range.stop ≤ bytes.length
  text : Utf8.encode hit.excerpt.text
    = (bytes.take hit.excerpt.range.stop).drop hit.excerpt.range.start
  first : hit.excerpt.range.start = hit.range.start
  short : hit.excerpt.range.stop - hit.excerpt.range.start ≤ 4096
  truncated : hit.excerpt.truncated = true ↔ hit.excerpt.range.stop < hit.range.stop

theorem verifiable_of_wellCut {engine : Engine} {bytes : Bytes} {hit : Hit}
    (hsha : ∀ b, (engine.sha256 b).length = 32) (h : WellCut engine bytes hit)
    (htext : isText bytes = true) (hlen : bytes.length ≤ 16777216) : Verifiable engine bytes hit where
  accepted id hid := ⟨hit.json, Json.parse_print _, assertEvidenceSource_hit hsha hid h htext hlen⟩
  digest := h.digest
  range := ⟨h.range, h.stop_le⟩
  excerpt := ⟨h.excerpt, Worker.le_of_isCharBoundary h.excerpt.last⟩
  text := h.encode_text htext
  first := h.first
  short := by
    have := h.short
    omega
  truncated := by
    have hlast := h.last
    rw [h.truncated, decide_eq_true_iff]
    omega

/-- No slice that `search_file` takes of a captured text panics: not the excerpt of a match, whose cut
stops at a boundary, and not the range of a read. -/
structure NoPanic {σ φ : Type} (job : Job σ φ) (bytes : Bytes) : Prop where
  cut : ∀ m ∈ job.matcher bytes,
    Worker.isCharBoundary bytes (Worker.excerptEnd bytes m.1 m.2) = true
  excerpt : ∀ m ∈ job.matcher bytes, Worker.isCharBoundary bytes m.1 = true →
    Worker.isCharBoundary bytes m.2 = true →
      Sliceable bytes m.1 (Worker.excerptEnd bytes m.1 m.2)
  read : ∀ read, job.request.read = some read → read.range.stop ≤ bytes.length →
    Worker.isCharBoundary bytes read.range.start = true →
      Worker.isCharBoundary bytes read.range.stop = true →
        Sliceable bytes read.range.start read.range.stop

/-- **Worker evidence is always verifiable**: whatever a file's capture returns and the matcher reports
in it, every hit `search_file` pushes can be checked against the captured content. -/
theorem searchFile_verifiable {σ φ : Type} {job : Job σ φ} {fd : φ} {path : Str} {s s' : State σ φ}
    {r : Except Worker.Code Unit} (hvalid : Worker.validate job.request = .ok ())
    (hpath : Worker.validPath path = true) (hsha : ∀ b, (job.engine.sha256 b).length = 32)
    (hmatches : ∀ b, isText b = true → Worker.Located job.matcher b)
    (h : Worker.searchFile job fd path s = (r, s')) :
    (∃ new, s'.result.hits = s.result.hits ++ new ∧ ∀ hit ∈ new, ∃ bytes w,
      Worker.captureTwice job fd path s.world = (.ok (some bytes), w) ∧
        Verifiable job.engine bytes hit) ∧
    ∀ bytes w, Worker.captureTwice job fd path s.world = (.ok (some bytes), w) →
      NoPanic job bytes := by
  have hv := Worker.validate_ok hvalid
  have hcontent : ∀ {bytes : Bytes} {w}, Worker.captureTwice job fd path s.world = (.ok (some bytes), w) →
      bytes.length ≤ 16777216 ∧ isText bytes = true := by
    intro bytes w hrun
    have hsafe := Worker.safe_captureTwice job fd path s.world.log s.world (Worker.Grown.refl _)
    rw [hrun] at hsafe
    obtain ⟨hlen, htext⟩ := hsafe.2 bytes rfl
    exact ⟨hlen.trans hv.maxFileBytes.2, htext⟩
  constructor
  · obtain ⟨new, hnew, hall⟩ := Worker.searchFile_pushed hpath h
    refine ⟨new, hnew, fun hit hh => ?_⟩
    obtain ⟨bytes, w, hrun, hreported⟩ := hall hit hh
    obtain ⟨hlen, htext⟩ := hcontent hrun
    exact ⟨bytes, w, hrun, verifiable_of_wellCut hsha (hreported.wellCut hv (hmatches bytes htext)) htext
      hlen⟩
  · intro bytes w hrun
    obtain ⟨-, htext⟩ := hcontent hrun
    refine ⟨fun m _ => Worker.isCharBoundary_boundaryBelow _ _, fun m hm h₁ h₂ => ?_,
      fun read hread _ h₁ h₂ => ⟨(hv.read read hread).2.1, h₁, h₂⟩⟩
    exact Worker.sliceable_excerpt ⟨(hmatches bytes htext m hm).1, h₁, h₂⟩

theorem searchFile_verifiable_oneFile : ∃ hit bytes,
    (Worker.searchFile Worker.oneFileJob (.file (Utf8.encode "xa\n".toList)) ['a']
      Worker.oneFileStart).2.result.hits = [hit] ∧ hit.range = ⟨1, 2⟩ ∧
        Verifiable Worker.Engine.plain bytes hit := by
  have hran : (Worker.searchFile Worker.oneFileJob (.file (Utf8.encode "xa\n".toList)) ['a']
      Worker.oneFileStart).2.result.hits.map (·.range) = [⟨1, 2⟩] := by decide +kernel
  have hvalid : Worker.validate Worker.oneFileJob.request = .ok () := by decide +kernel
  have hpath : Worker.validPath ['a'] = true := by decide +kernel
  have hsha : ∀ b, (Worker.oneFileJob.engine.sha256 b).length = 32 := fun b => Sha256.length_digest b
  have hmatches : ∀ b, isText b = true → Worker.Located Worker.oneFileJob.matcher b := by
    intro b _ m hm
    have hmem : m.1 ≤ m.2 ∧ m.2 ≤ 0 + b.length := Worker.mem_literalMatches hm
    rwa [Nat.zero_add] at hmem
  rcases hrun : Worker.searchFile Worker.oneFileJob (.file (Utf8.encode "xa\n".toList)) ['a']
    Worker.oneFileStart with ⟨r, s'⟩
  rw [hrun] at hran
  obtain ⟨⟨new, hnew, hall⟩, -⟩ := searchFile_verifiable hvalid hpath hsha hmatches hrun
  have hstart : Worker.oneFileStart.result.hits = [] := rfl
  rw [hstart, List.nil_append] at hnew
  rw [hnew] at hran
  obtain ⟨hit, rfl, hrange⟩ := List.map_eq_singleton_iff.1 hran
  obtain ⟨bytes, -, -, hv⟩ := hall hit (List.mem_singleton_self hit)
  exact ⟨hit, bytes, hnew, hrange, hv⟩

/-! ## §4 — only genuine evidence passes it. -/

/-- A range of a text: in order, inside, and between scalar values at both ends. -/
structure InText (captured : Bytes) (r : Range) : Prop where
  ordered : r.start ≤ r.stop
  inside : r.stop ≤ captured.length
  first : ScalarBoundary captured r.start
  last : ScalarBoundary captured r.stop

/-- What evidence of a captured file is, in the terms of the file and not of the check. -/
structure Genuine (sha256 : Bytes → Bytes) (e : Evidence) (captured : Bytes) : Prop where
  path : isWellFormed e.path = true ∧ byteLength e.path ≤ 4096
  length : captured.length ≤ 16777216
  digest : e.fileSha256 = hexDigest (sha256 captured)
  /-- Valid UTF-8 without NUL. -/
  text : (∃ cs, captured = Utf8.encode cs) ∧ 0 ∉ captured
  range : InText captured e.range
  excerpt : InText captured e.excerpt.range
  /-- The excerpt's text is well-formed, short, and what the bytes of its range decode to. -/
  shown : ∃ cs, e.excerpt.text = encode cs ∧ (Utf8.encode cs).length ≤ 4096 ∧
    Utf8.decode ((captured.take e.excerpt.range.stop).drop e.excerpt.range.start) = some cs
  truncated : e.excerpt.truncated = false ↔
    e.excerpt.range.start ≤ e.range.start ∧ e.range.stop ≤ e.excerpt.range.stop

theorem byteText_iff {s : JsString} {most : Nat} :
    byteText s most = true ↔ isWellFormed s = true ∧ byteLength s ≤ most := by
  rw [byteText, Bool.and_eq_true, decide_eq_true_iff]

/-- The invariants of a text's range, as the check reads them. -/
theorem inText_iff {cs : Str} {r : Range} : InText (Utf8.encode cs) r ↔
    r.start ≤ r.stop ∧ r.stop ≤ (Utf8.encode cs).length
      ∧ boundaryAt (Utf8.encode cs) r.start = true ∧ boundaryAt (Utf8.encode cs) r.stop = true := by
  constructor
  · intro h
    exact ⟨h.ordered, h.inside, (boundaryAt_iff (h.ordered.trans h.inside)).2 h.first,
      (boundaryAt_iff h.inside).2 h.last⟩
  · rintro ⟨hordered, hinside, hfirst, hlast⟩
    exact ⟨hordered, hinside, (boundaryAt_iff (hordered.trans hinside)).1 hfirst,
      (boundaryAt_iff hinside).1 hlast⟩

/-- What `evidenceShape` asks for, one by one. -/
theorem evidenceShape_iff {e : Evidence} : evidenceShape e = true ↔
    (isWellFormed e.path = true ∧ byteLength e.path ≤ 4096)
      ∧ (isWellFormed e.excerpt.text = true ∧ byteLength e.excerpt.text ≤ 4096)
      ∧ e.range.start ≤ e.range.stop ∧ e.excerpt.range.start ≤ e.excerpt.range.stop
      ∧ byteLength e.excerpt.text = e.excerpt.range.stop - e.excerpt.range.start
      ∧ (e.excerpt.truncated = false ↔
          e.excerpt.range.start ≤ e.range.start ∧ e.range.stop ≤ e.excerpt.range.stop) := by
  have hflag : ∀ {t : Bool} {p : Prop} [Decidable p], (t == !decide p) = true ↔ (t = false ↔ p) := by
    intro t p _
    cases t <;> simp
  simp only [evidenceShape, Bool.and_eq_true, byteText_iff, decide_eq_true_iff, beq_iff_eq,
    ← Bool.decide_and, hflag, and_assoc]

/-- What the invariants behind the shape ask for, one by one. -/
theorem sourceInvariants_iff {sha256 : Bytes → Bytes} {e : Evidence} {captured : Bytes} :
    sourceInvariants sha256 e captured = true ↔
      captured.length ≤ 16777216 ∧ e.fileSha256 = hexDigest (sha256 captured)
        ∧ isText captured = true
        ∧ (∀ r ∈ [e.range, e.excerpt.range], r.stop ≤ captured.length
            ∧ boundaryAt captured r.start = true ∧ boundaryAt captured r.stop = true)
        ∧ (captured.take e.excerpt.range.stop).drop e.excerpt.range.start
            = utf8Bytes e.excerpt.text := by
  simp only [sourceInvariants, isText, Bool.and_eq_true, decide_eq_true_iff, beq_iff_eq,
    List.all_eq_true, List.forall_mem_cons, and_assoc,
    eq_comm (a := e.fileSha256)]
  tauto

/-- **The check passes evidence exactly when it is genuine.** -/
theorem assertEvidenceSource_iff (sha256 : Bytes → Bytes) (input : Json) (e : Evidence)
    (captured : Bytes) : assertEvidenceSource sha256 input captured = some e ↔
      readEvidence input = some e ∧ Genuine sha256 e captured := by
  rw [assertEvidenceSource, Option.filter_eq_some_iff, Bool.and_eq_true, evidenceShape_iff,
    sourceInvariants_iff]
  refine and_congr_right fun _ => ?_
  constructor
  · rintro ⟨⟨hpath, htext, hordered, hordered', hlength, htruncated⟩, hcap, hdigest, hvalid, hranges,
      hbytes⟩
    obtain ⟨hnul, cs, rfl⟩ := Worker.isText_iff.1 hvalid
    obtain ⟨shown, hshown⟩ := Utf16.isWellFormed_iff.1 htext.1
    -- the two encoders write the same bytes for a well-formed text
    rw [hshown, utf8Bytes_encode] at hbytes
    have hshort : (Utf8.encode shown).length ≤ 4096 := by
      rw [Utf8.length_encode, ← byteLength_encode, ← hshown]
      exact htext.2
    have hrange := hranges e.range (List.mem_cons_self ..)
    have hexcerpt := hranges e.excerpt.range (List.mem_cons_of_mem _ (List.mem_singleton_self _))
    exact {
      path := hpath
      length := hcap
      digest := hdigest
      text := ⟨⟨cs, rfl⟩, hnul⟩
      range := inText_iff.2 ⟨hordered, hrange⟩
      excerpt := inText_iff.2 ⟨hordered', hexcerpt⟩
      shown := ⟨shown, hshown, hshort, Utf8.decode_eq_some.2 hbytes⟩
      truncated := htruncated }
  · intro h
    obtain ⟨⟨cs, rfl⟩, hnul⟩ := h.text
    obtain ⟨shown, hshown, hshort, hdecode⟩ := h.shown
    have hbytes := Utf8.decode_eq_some.1 hdecode
    have hlen : byteLength e.excerpt.text = (Utf8.encode shown).length := by
      rw [hshown, byteLength_encode, Utf8.length_encode]
    obtain ⟨hordered, hrange⟩ := inText_iff.1 h.range
    obtain ⟨hordered', hexcerpt⟩ := inText_iff.1 h.excerpt
    -- the length of the text is that of the bytes it decodes
    have hwidth : byteLength e.excerpt.text = e.excerpt.range.stop - e.excerpt.range.start := by
      rw [hlen, ← hbytes, List.length_drop, List.length_take, Nat.min_eq_left hexcerpt.1]
    have htext : isWellFormed e.excerpt.text = true ∧ byteLength e.excerpt.text ≤ 4096 := by
      constructor
      · rw [hshown]
        exact isWellFormed_encode shown
      · rw [hlen]
        exact hshort
    refine ⟨⟨h.path, htext, hordered, hordered', hwidth, h.truncated⟩, h.length, h.digest,
      Worker.isText_iff.2 ⟨hnul, cs, rfl⟩, ?_, ?_⟩
    · intro r hr
      rcases List.mem_cons.1 hr with rfl | hr
      · exact hrange
      · rw [List.mem_singleton.1 hr]
        exact hexcerpt
    · rw [hshown, utf8Bytes_encode]
      exact hbytes

end JevGrep.Service
