/-
# `JevGrep.Worker.Result` — what a success of `search` promises.

However the system behaves, every hit comes from a captured text, every counter is covered by the
entries taken up, and the reasons say when something was left out. §1 hits; §2 the promises, and that
the walk keeps them; §3 a success of `search`.
-/
import JevGrep.Worker.Invariant
import JevGrep.Worker.Account

namespace JevGrep.Worker

open JevGrep.Lib

variable {σ φ : Type}

/-! ## §1 — hits. -/

/-- The hits that the content of a file can give, in a search and in a read. -/
inductive Reported (job : Job σ φ) (bytes : Bytes) : Hit → Prop where
  | found (path : Str) (start stop : Nat) (search : job.request.read = none)
      (valid : validPath path = true) (matched : (start, stop) ∈ job.matcher bytes)
      (shown : phantom bytes start = false) (first : isCharBoundary bytes start = true)
      (last : isCharBoundary bytes stop = true) :
      Reported job bytes (matchHit path (hex (job.engine.sha256 bytes)) bytes start stop)
  | read (read : ReadRequest) (asked : job.request.read = some read)
      (valid : validPath read.path = true)
      (expected : ∀ digest, read.expectedFileSha256 = some digest →
        digest = hex (job.engine.sha256 bytes))
      (inside : read.range.stop ≤ bytes.length)
      (first : isCharBoundary bytes read.range.start = true)
      (last : isCharBoundary bytes read.range.stop = true) :
      Reported job bytes (readHit read.path (hex (job.engine.sha256 bytes)) bytes read.range)

/-- A hit with the captured text it comes from; it fits into a response of its own. -/
structure Evidenced (job : Job σ φ) (log : List (Event φ)) (hit : Hit) : Prop where
  source : ∃ fd bytes, Event.captured fd (.ok (some bytes)) ∈ log ∧
    bytes.length ≤ job.request.maxFileBytes ∧ isText bytes = true ∧ Reported job bytes hit
  fits : 2048 + hit.size ≤ job.request.responseBytes

theorem Evidenced.mono {job : Job σ φ} {log log' : List (Event φ)} {hit : Hit}
    (h : Evidenced job log hit) (hlog : log <+: log') : Evidenced job log' hit := by
  obtain ⟨fd, bytes, hmem, hrest⟩ := h.source
  exact ⟨⟨fd, bytes, hlog.subset hmem, hrest⟩, h.fits⟩

/-! ## §2 — the promises. -/

/-- The bytes the hits of a response are charged. -/
def chargeOf : List Hit → Nat
  | [] => 0
  | hit :: rest => hit.size + chargeOf rest

theorem chargeOf_push (hit : Hit) : ∀ hits : List Hit,
    chargeOf (hits ++ [hit]) = chargeOf hits + hit.size
  | [] => (Nat.add_comm _ _)
  | x :: rest => by
      show x.size + chargeOf (rest ++ [hit]) = x.size + chargeOf rest + hit.size
      rw [chargeOf_push hit rest, Nat.add_assoc]

/-- The codes that `reasons` of a success can have. -/
def issueCodes : List Code :=
  [.deadline, .readFailed, .sourceMutated, .policyChanged, .entryLimit, .limitReached, .byteLimit,
    .depthLimit]

/-- What holds of the reasons, at every moment. -/
structure Reasoned (s : Success) : Prop where
  nodup : s.reasons.Nodup
  codes : ∀ code ∈ s.reasons, code ∈ issueCodes
  coverage : s.coverage = .complete ↔ s.reasons = []
  /-- No failure goes without a reason. -/
  failed : s.counts.failed ≠ 0 → s.reasons ≠ []

theorem Reasoned.issue {s : Success} {code : Code} (h : Reasoned s) (hcode : code ∈ issueCodes) :
    Reasoned (s.issue code) := by
  have hne : (s.issue code).reasons ≠ [] := by
    show (if code ∈ s.reasons then s.reasons else s.reasons ++ [code]) ≠ []
    split
    case isTrue hmem => exact List.ne_nil_of_mem hmem
    case isFalse => simp
  refine ⟨?_, ?_, ⟨(fun hc => by cases hc), fun hr => absurd hr hne⟩, fun _ => hne⟩
  · show (if code ∈ s.reasons then s.reasons else s.reasons ++ [code]).Nodup
    split
    · exact h.nodup
    case isFalse hnew =>
      refine List.nodup_append.2 ⟨h.nodup, by simp, fun c hc d hd heq => ?_⟩
      exact hnew (List.mem_singleton.1 hd ▸ heq ▸ hc)
  · intro c hc
    change c ∈ (if code ∈ s.reasons then s.reasons else s.reasons ++ [code]) at hc
    split at hc
    · exact h.codes c hc
    · rcases List.mem_append.1 hc with hc | hc
      · exact h.codes c hc
      · rw [List.mem_singleton.1 hc]
        exact hcode

/-- A failure with its reason. -/
theorem Reasoned.failed_issue {s : Success} {code : Code} (h : Reasoned s)
    (hcode : code ∈ issueCodes) : Reasoned (s.failed.issue code) := by
  have hissue : Reasoned (s.issue code) := h.issue hcode
  refine ⟨hissue.nodup, hissue.codes, hissue.coverage, fun _ => ?_⟩
  intro hnil
  have hc := hissue.coverage.2 hnil
  cases hc

/-- The fields that a search sets at its start. -/
structure Labelled (r : Request) (s : Success) : Prop where
  v : s.v = 1
  id : s.id = r.id
  matcherVersion : s.matcherVersion = MATCHER

/-- What a search keeps at every moment, with `k` entries taken up that are in no counter. -/
structure Kept (job : Job σ φ) (k : Nat) (s : State σ φ) : Prop where
  counted : s.result.counts.searched + s.result.counts.excluded + s.result.counts.failed + k
    ≤ s.result.counts.visited
  visited : s.result.counts.visited ≤ job.request.maxEntries
  bytesRead : s.result.counts.bytesRead ≤ s.result.counts.searched * job.request.maxFileBytes
  reasoned : Reasoned s.result
  evidenced : ∀ hit ∈ s.result.hits, Evidenced job s.world.log hit
  most : job.request.read = none → s.result.hits.length ≤ job.request.maxMatches
  charged : s.usedBytes
    = 2048 + if job.request.read = none then chargeOf s.result.hits else 0
  budget : s.usedBytes ≤ job.request.responseBytes
  labelled : Labelled job.request s.result

namespace Kept

variable {job : Job σ φ} {k : Nat} {s : State σ φ}

theorem later (h : Kept job k s) {w : World σ φ} (hw : s.world.log <+: w.log) (scope : Scope) :
    Kept job k { s with world := w, scope := scope } :=
  ⟨h.counted, h.visited, h.bytesRead, h.reasoned, fun hit hh => (h.evidenced hit hh).mono hw, h.most,
    h.charged, h.budget, ⟨h.labelled.v, h.labelled.id, h.labelled.matcherVersion⟩⟩

theorem note (h : Kept job k s) (e : Event φ) : Kept job k (s.note e) :=
  h.later (List.prefix_append s.world.log [e]) s.scope

theorem issue (h : Kept job k s) {code : Code} (hcode : code ∈ issueCodes) :
    Kept job k (s.issue code) :=
  ⟨h.counted, h.visited, h.bytesRead, h.reasoned.issue hcode, h.evidenced, h.most, h.charged, h.budget,
    ⟨h.labelled.v, h.labelled.id, h.labelled.matcherVersion⟩⟩

theorem push (h : Kept job k s) {bytes : Bytes} {hit : Hit}
    (hcontent : Content job.request.maxFileBytes bytes s) (hreported : Reported job bytes hit)
    (hfits : s.usedBytes + hit.size ≤ job.request.responseBytes) :
    ∀ x ∈ (s.push hit).result.hits, Evidenced job s.world.log x := by
  intro x hx
  rcases List.mem_append.1 hx with hx | hx
  · exact h.evidenced x hx
  · rw [List.mem_singleton.1 hx]
    obtain ⟨fd, hfd⟩ := hcontent.captured
    have hbase := h.charged
    exact ⟨⟨fd, bytes, hfd, hcontent.length, hcontent.text, hreported⟩, by omega⟩

theorem spare (h : Kept job (k + 1) s) : Kept job k s where
  __ := h
  counted := by
    have hcounted := h.counted
    omega

theorem visit (h : Kept job k s) (hroom : s.result.counts.visited ≠ job.request.maxEntries) :
    Kept job (k + 1) s.visited := by
  refine ⟨?_, ?_, h.bytesRead, ⟨h.reasoned.nodup, h.reasoned.codes, h.reasoned.coverage,
    h.reasoned.failed⟩, h.evidenced, h.most, h.charged, h.budget,
    ⟨h.labelled.v, h.labelled.id, h.labelled.matcherVersion⟩⟩
  · have hcounted := h.counted
    simp only [State.visited, Success.visited]
    omega
  · have hvisited := h.visited
    simp only [State.visited, Success.visited]
    omega

theorem exclude (h : Kept job (k + 1) s) : Kept job k s.excluded := by
  refine ⟨?_, h.visited, h.bytesRead, ⟨h.reasoned.nodup, h.reasoned.codes, h.reasoned.coverage,
    h.reasoned.failed⟩, h.evidenced, h.most, h.charged, h.budget,
    ⟨h.labelled.v, h.labelled.id, h.labelled.matcherVersion⟩⟩
  have hcounted := h.counted
  simp only [State.excluded, Success.excluded]
  omega

theorem fail (h : Kept job (k + 1) s) {code : Code}
    (hcode : code = .readFailed ∨ code = .sourceMutated) : Kept job k (s.failed.issue code) := by
  have hmem : code ∈ issueCodes := by
    rcases hcode with rfl | rfl <;> decide
  refine ⟨?_, h.visited, h.bytesRead, h.reasoned.failed_issue hmem, h.evidenced, h.most, h.charged,
    h.budget, ⟨h.labelled.v, h.labelled.id, h.labelled.matcherVersion⟩⟩
  have hcounted := h.counted
  simp only [State.issue, State.failed, Success.issue, Success.failed]
  omega

theorem deepen (h : Kept job k s) : Kept job k (s.issue .depthLimit) := h.issue (by decide)

theorem search (h : Kept job (k + 1) s) {path : Str} {bytes : Bytes}
    (hcontent : Content job.request.maxFileBytes bytes s) : Kept job k (s.searched path bytes) := by
  refine ⟨?_, h.visited, ?_, ⟨h.reasoned.nodup, h.reasoned.codes, h.reasoned.coverage,
    h.reasoned.failed⟩, fun hit hh => (h.evidenced hit hh).mono (List.prefix_append _ _), h.most,
    h.charged, h.budget, ⟨h.labelled.v, h.labelled.id, h.labelled.matcherVersion⟩⟩
  · have hcounted := h.counted
    simp only [State.searched, Success.searched]
    omega
  · have hread := h.bytesRead
    have hlen := hcontent.length
    simp only [State.searched, Success.searched, Nat.succ_mul]
    omega

/-- A match is charged and pushed. -/
theorem find (h : Kept job k s) {path : Str} {bytes : Bytes} {start stop : Nat}
    (hcontent : Content job.request.maxFileBytes bytes s)
    (hreported : Reported job bytes (matchHit path (hex (job.engine.sha256 bytes)) bytes start stop))
    (hread : job.request.read = none) (hroom : s.result.hits.length ≠ job.request.maxMatches)
    (hfits : s.usedBytes + (matchHit path (hex (job.engine.sha256 bytes)) bytes start stop).size
      ≤ job.request.responseBytes) :
    Kept job k ((s.charge (matchHit path (hex (job.engine.sha256 bytes)) bytes start stop).size).push
      (matchHit path (hex (job.engine.sha256 bytes)) bytes start stop)) := by
  refine ⟨h.counted, h.visited, h.bytesRead, ⟨h.reasoned.nodup, h.reasoned.codes,
    h.reasoned.coverage, h.reasoned.failed⟩, h.push hcontent hreported hfits, fun _ => ?_, ?_,
    hfits, ⟨h.labelled.v, h.labelled.id, h.labelled.matcherVersion⟩⟩
  · have hmost := h.most hread
    simp only [State.push, State.charge, Success.push, List.length_append, List.length_singleton]
    omega
  · have hcharged := h.charged
    rw [if_pos hread] at hcharged ⊢
    simp only [State.push, State.charge, Success.push, chargeOf_push]
    omega

/-- The hit of a read is pushed and not charged. -/
theorem took (h : Kept job k s) {bytes : Bytes} {read : ReadRequest}
    (hcontent : Content job.request.maxFileBytes bytes s)
    (hreported : Reported job bytes
      (readHit read.path (hex (job.engine.sha256 bytes)) bytes read.range))
    (hread : job.request.read = some read)
    (hfits : s.usedBytes + (readHit read.path (hex (job.engine.sha256 bytes)) bytes read.range).size
      ≤ job.request.responseBytes) :
    Kept job k (s.push (readHit read.path (hex (job.engine.sha256 bytes)) bytes read.range)) := by
  refine ⟨h.counted, h.visited, h.bytesRead, ⟨h.reasoned.nodup, h.reasoned.codes,
    h.reasoned.coverage, h.reasoned.failed⟩, h.push hcontent hreported hfits,
    fun hnone => ?_, ?_, h.budget, ⟨h.labelled.v, h.labelled.id, h.labelled.matcherVersion⟩⟩
  · rw [hread] at hnone
    cases hnone
  · have hcharged := h.charged
    rw [if_neg (by simp [hread])] at hcharged ⊢
    exact hcharged

theorem entered (dir : Str) : Exec.Triple (fun s => Kept job k s ∧ True)
    (Work.entering (enter job.engine job.os job.deadline dir)) (fun _ s => Kept job k s)
    fun _ s => Kept job k s :=
  entered_of dir fun _ _ scope h hlog _ => h.1.later hlog scope

end Kept

/-- **The promises are an invariant of the walk.** -/
def kept (job : Job σ φ) : Invariant job where
  Inv _ k s := Kept job k s
  spare h := h.spare
  leave h := h
  called h hw := h.later hw.le _
  entered dir := Kept.entered dir
  ended dir item _ h := h.note (.entry dir item)
  named n h := h.note _
  visited h hroom := h.visit hroom
  excluded h := h.exclude
  failed h hcode := h.fail hcode
  tooDeep h := h.deepen
  checked _ h _ _ := h.note _
  searched h _ _ hcontent := h.search hcontent
  found h _ hpath hcontent hread hmem hshown hstart hstop hroom hfits :=
    h.find hcontent (Reported.found _ _ _ hread hpath hmem hshown hstart hstop) hread hroom hfits
  read h _ hpath hcontent hread hdigest hinside hstart hstop hfits :=
    h.took hcontent (Reported.read _ hread hpath hdigest hinside hstart hstop) hread hfits

/-! ## §3 — a success of `search`. -/

/-- What a success of `search` promises, with the log of the run. -/
structure Promised (job : Job σ φ) (log : List (Event φ)) (s : Success) : Prop where
  labelled : Labelled job.request s
  counted : s.counts.searched + s.counts.excluded ≤ s.counts.visited
  /-- The walk itself may fail, which is no entry. -/
  failed : s.counts.failed ≤ s.counts.visited + 1
  visited : s.counts.visited ≤ job.request.maxEntries
  bytesRead : s.counts.bytesRead ≤ s.counts.searched * job.request.maxFileBytes
  reasoned : Reasoned s
  evidenced : ∀ hit ∈ s.hits, Evidenced job log hit
  most : job.request.read = none → s.hits.length ≤ job.request.maxMatches
  charged : job.request.read = none → 2048 + chargeOf s.hits ≤ job.request.responseBytes
  read : job.request.read.isSome = true → s.reasons = [] ∧ s.hits ≠ []
  snapshot : ∃ observations, s.policySnapshotHash = snapshotHash job.engine observations
  elapsed : ∃ elapsed, s.elapsedMs = job.engine.elapsedMs elapsed

theorem mem_issueCodes {r : Request} {code : Code} (h : code ∈ walkCodes r) (hread : r.read = none)
    (hplain : code ≠ .matchEncoding) : code ∈ issueCodes := by
  rw [walkCodes, hread] at h
  revert hplain
  revert h code
  decide

/-- The counters behind the walk: an error of the walk itself may be one more failure. -/
theorem Traversed.kept {job : Job σ φ} {s s' : State σ φ} (h : Traversed job s s')
    (hs : Kept job 0 s) : Reasoned s'.result ∧ s'.result.counts.failed ≤ s.result.counts.failed + 1 ∧
      s'.result = { s.result with
        counts.failed := s'.result.counts.failed
        reasons := s'.result.reasons
        coverage := s'.result.coverage } ∧ s'.world = s.world ∧ s'.scope = s.scope := by
  cases h with
  | well => exact ⟨hs.reasoned, Nat.le_succ _, rfl, rfl, rfl⟩
  | stopped code hcode hsearch hplain _ =>
    have hmem := mem_issueCodes hcode hsearch hplain
    unfold State.stopped
    split
    · exact ⟨hs.reasoned.failed_issue hmem, Nat.le_refl _, rfl, rfl, rfl⟩
    · exact ⟨hs.reasoned.issue hmem, Nat.le_succ _, rfl, rfl, rfl⟩

theorem Revalidated.kept {job : Job σ φ} {s s' : State σ φ} (h : Revalidated job s s')
    (hs : Reasoned s.result) : Reasoned s'.result ∧
      s'.result = { s.result with
        reasons := s'.result.reasons
        coverage := s'.result.coverage } ∧ s'.scope = s.scope := by
  cases h with
  | same => exact ⟨hs, rfl, rfl⟩
  | changed code w hverify =>
    have hmem : code ∈ issueCodes := by
      have hcode : code ∈ policyCodes := Revalidated.code_mem hverify
      have hsub : policyCodes ⊆ issueCodes := by decide
      exact hsub hcode
    exact ⟨hs.issue hmem, rfl, rfl⟩

theorem Concluded.promised {job : Job σ φ} {walked sorted ended : State σ φ} {success : Success}
    {w : World σ φ} (h : Concluded job walked sorted ended success w) (hs : Kept job 0 walked) :
    Promised job w.log success := by
  obtain ⟨hreasoned, hfailed, hsorted, hworld, -⟩ := h.traversed.kept hs
  obtain ⟨hreasoned', hended, -⟩ := h.revalidated.kept hreasoned
  obtain ⟨elapsed, hsuccess⟩ := h.success_eq
  have hlog : walked.world.log <+: w.log := by
    rw [h.log, ← hworld]
    exact h.revalidated.grown.le
  have hfields : success = { walked.result with
      counts.failed := sorted.result.counts.failed
      reasons := ended.result.reasons
      coverage := ended.result.coverage
      policySnapshotHash := snapshotHash job.engine ended.scope.observations
      elapsedMs := job.engine.elapsedMs elapsed } := by
    rw [hsuccess, hended, hsorted]
  have hcounted := hs.counted
  have hreasons : ended.result.counts.failed = sorted.result.counts.failed := by rw [hended]
  subst hfields
  refine ⟨⟨hs.labelled.v, hs.labelled.id, hs.labelled.matcherVersion⟩, ?_, ?_, hs.visited,
    hs.bytesRead, ⟨hreasoned'.nodup, hreasoned'.codes, hreasoned'.coverage, fun hf => ?_⟩,
    fun hit hh => (hs.evidenced hit hh).mono hlog, hs.most, fun hread => ?_, fun hread => ?_, ⟨_, rfl⟩,
    ⟨_, rfl⟩⟩
  · show walked.result.counts.searched + walked.result.counts.excluded ≤ walked.result.counts.visited
    omega
  · show sorted.result.counts.failed ≤ walked.result.counts.visited + 1
    omega
  · exact hreasoned'.failed (hreasons ▸ hf)
  · have hcharged := hs.charged
    have hbudget := hs.budget
    rw [if_pos hread] at hcharged
    show 2048 + chargeOf walked.result.hits ≤ _
    omega
  · have hread' := h.read hread
    rw [hended, hsorted] at hread'
    exact hread'

/-- The state that the walk of a valid request starts from. -/
theorem kept_start {job : Job σ φ} (hvalid : Valid job.request) (w : World σ φ) (scope : Scope) :
    Kept job 0 { world := w, scope, result := Success.empty job.request.id, usedBytes := 2048 } where
  counted := Nat.le_refl 0
  visited := Nat.zero_le _
  bytesRead := Nat.zero_le _
  reasoned := ⟨List.nodup_nil, fun _ h => absurd h (by simp [Success.empty]), ⟨fun _ => rfl, fun _ => rfl⟩,
    fun h => absurd rfl h⟩
  evidenced _ h := absurd h (by simp [Success.empty])
  most _ := Nat.zero_le _
  charged := by
    split <;> rfl
  budget := hvalid.responseBytes.1
  labelled := ⟨rfl, rfl, rfl⟩

/-- **What a success of `search` promises**, whatever the system answered. -/
theorem search_promised {engine : Engine} {os : Os σ φ} {root : φ} {r : Request} {w w' : World σ φ}
    {success : Success} (h : search engine os root r w = (.ok success, w')) :
    ∃ matcher deadline, engine.matcher r.pattern r.kind r.caseSensitive = some matcher ∧
      Promised { engine, os, root, request := r, deadline, matcher } w'.log success := by
  obtain ⟨matcher, scope, hvalid, hmatcher, -, started, w₁, s', -, hrun, hw'⟩ := search_ok h
  generalize hdeadline : started + r.deadlineMs * 1000000 = deadline at hrun
  have hv : Valid r := validate_ok hvalid
  have hstart : Kept { engine, os, root, request := r, deadline, matcher } 0
      { world := w₁, scope, result := Success.empty r.id, usedBytes := 2048 } :=
    kept_start hv w₁ scope
  obtain ⟨walked, sorted, ended, hwalked, hconcluded⟩ := conclude_ok (kept _) hstart trivial hrun
  rw [hw'] at hconcluded
  exact ⟨matcher, deadline, hmatcher, hconcluded.promised hwalked⟩

end JevGrep.Worker
