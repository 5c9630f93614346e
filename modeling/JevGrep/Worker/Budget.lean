/-
# `JevGrep.Worker.Budget` — the size of a reply.

The 2048 bytes that a search sets aside cover everything of a success but its hits, and the hits of a
search are charged one by one. A read compares its hit with the budget and charges nothing: it stays
within the budget as long as its file is met once. §1 the envelope; §2 the hits of a read; §3 replies;
§4 a stream that repeats a name.
-/
import Mathlib.Algebra.Group.Nat.Defs
import Mathlib.Data.List.Perm.Subperm
import JevGrep.Worker.Read
import JevGrep.Worker.Reply
import JevGrep.Worker.Streams

namespace JevGrep.Worker

open JevGrep.Lib
open JevGrep.Lib.Json (escapedBytes escapedPointBytes)
open JevGrep.Lib.Utf16 (encode points_encode utf8Len)

variable {σ φ : Type}

/-! ## §1 — the envelope. -/

/-- The bytes of the fields of a struct, each with its name, quotes, colon and comma. -/
def fieldBytes : List (String × Json) → Nat
  | [] => 0
  | (name, v) :: rest => escapedBytes (Schema.units name) + 4 + Json.size v + fieldBytes rest

theorem sizeMembers_map : ∀ fields : List (String × Json),
    Json.sizeMembers (fields.map fun f => (Schema.units f.1, f.2)) = 1 + fieldBytes fields
  | [] => rfl
  | (name, v) :: rest => by
      have ih := sizeMembers_map rest
      rw [List.map_cons]
      show 1 + (escapedBytes (Schema.units name) + 2) + 1 + Json.size v + Json.sizeMembers _ = _
      rw [ih, fieldBytes]
      omega

theorem size_structJson (name : String) (v : Json) (rest : List (String × Json)) :
    Json.size (structJson ((name, v) :: rest)) = 1 + fieldBytes ((name, v) :: rest) := by
  have hrest := sizeMembers_map rest
  rw [structJson, List.map_cons]
  show 1 + (escapedBytes (Schema.units name) + 2) + 1 + Json.size v + Json.sizeMembers _ = _
  rw [hrest, fieldBytes]
  omega

theorem size_nat_le {n k : Nat} (h : n < 10 ^ k) (hk : 0 < k) : Json.size (.nat n) ≤ k := by
  rw [Json.size]
  exact (Nat.length_toDigits_le_iff (by decide) hk).2 h

/-- A character takes six bytes at most. -/
theorem size_strJson_le (s : Str) : Json.size (strJson s) ≤ 6 * s.length + 2 := by
  rw [strJson, Json.size, escapedBytes, points_encode]
  refine Nat.add_le_add_right ?_ 2
  induction s with
  | nil => exact Nat.le_refl 0
  | cons c s ih =>
    have hc := Json.escapedPointBytes_le (.scalar c)
    rw [List.map_cons, List.foldr_cons, List.length_cons]
    omega

theorem length_hex (digest : Bytes) : (hex digest).length = 2 * digest.length := by
  induction digest with
  | nil => rfl
  | cons b digest ih =>
    rw [hex, List.flatMap_cons, List.length_append, ← hex, ih, List.length_cons]
    simp only [List.length_cons, List.length_nil]
    omega

theorem length_le_utf8Len (s : Str) : s.length ≤ utf8Len s := by
  induction s with
  | nil => exact Nat.le_refl 0
  | cons c s ih =>
    have hpos := Char.utf8Size_pos c
    rw [List.length_cons, Utf16.utf8Len_cons]
    omega

/-- The code names are short. -/
theorem size_code_le (code : Code) : Json.size code.json ≤ 19 := by
  cases code <;> decide +kernel

theorem sizeItems_codes : ∀ codes : List Code,
    Json.sizeItems (codes.map Code.json) ≤ 1 + 20 * codes.length
  | [] => Nat.le_refl _
  | code :: rest => by
      have hcode := size_code_le code
      have hrest := sizeItems_codes rest
      rw [List.map_cons, Json.sizeItems, List.length_cons]
      omega

theorem size_codes_le (codes : List Code) :
    Json.size (.arr (codes.map Code.json)) ≤ 2 + 20 * codes.length := by
  cases codes with
  | nil => decide
  | cons code rest =>
    have hcode := size_code_le code
    have hrest := sizeItems_codes rest
    rw [List.map_cons, Json.size, List.length_cons]
    omega

theorem sizeItems_hits : ∀ hits : List Hit,
    Json.sizeItems (hits.map Hit.json) = 1 + chargeOf hits
  | [] => rfl
  | hit :: rest => by
      rw [List.map_cons, Json.sizeItems, sizeItems_hits rest, chargeOf, Hit.size]
      omega

/-- What the hits are charged covers the array of them. -/
theorem size_hits_le (hits : List Hit) :
    Json.size (.arr (hits.map Hit.json)) ≤ 2 + chargeOf hits := by
  cases hits with
  | nil => exact Nat.le_refl _
  | cons hit rest =>
    rw [List.map_cons, Json.size, sizeItems_hits, chargeOf, Hit.size]
    omega

/-- What a reply relies on of the crates: 32 bytes of a digest, and the shortest form of a double. -/
structure Engine.Short (engine : Engine) : Prop where
  sha256 : ∀ bytes, (engine.sha256 bytes).length = 32
  elapsedMs : ∀ elapsed, Json.size (engine.elapsedMs elapsed).json ≤ 24

theorem Reasoned.length_le {s : Success} (h : Reasoned s) : s.reasons.length ≤ 8 :=
  (List.subperm_of_subset h.nodup h.codes).length_le

theorem size_counts_le {job : Job σ φ} {log : List (Event φ)} {s : Success}
    (hvalid : Valid job.request) (h : Promised job log s) : Json.size s.counts.json ≤ 110 := by
  have hcounted := h.counted
  have hvisited := h.visited.trans hvalid.maxEntries.2
  have hfailed := h.failed
  have hbytes : s.counts.bytesRead ≤ 100000 * 16777216 :=
    h.bytesRead.trans (Nat.mul_le_mul (by omega) hvalid.maxFileBytes.2)
  have h₁ : Json.size (.nat s.counts.visited) ≤ 6 := size_nat_le (by omega) (by decide)
  have h₂ : Json.size (.nat s.counts.searched) ≤ 6 := size_nat_le (by omega) (by decide)
  have h₃ : Json.size (.nat s.counts.excluded) ≤ 6 := size_nat_le (by omega) (by decide)
  have h₄ : Json.size (.nat s.counts.failed) ≤ 6 := size_nat_le (by omega) (by decide)
  have h₅ : Json.size (.nat s.counts.bytesRead) ≤ 13 := size_nat_le (by omega) (by decide)
  have hnames : escapedBytes (Schema.units "visited") = 7 ∧ escapedBytes (Schema.units "searched") = 8 ∧
      escapedBytes (Schema.units "excluded") = 8 ∧ escapedBytes (Schema.units "failed") = 6 ∧
      escapedBytes (Schema.units "bytesRead") = 9 := by decide +kernel
  rw [Counts.json, size_structJson]
  simp only [fieldBytes, hnames]
  omega

/-- **The 2048 bytes set aside cover everything of a success but its hits.** -/
theorem size_success_le {job : Job σ φ} {log : List (Event φ)} {s : Success}
    (hvalid : Valid job.request) (hshort : job.engine.Short) (h : Promised job log s) :
    Json.size s.json ≤ 2048 + chargeOf s.hits := by
  have hv : Json.size (.nat s.v) = 1 := by
    rw [h.labelled.v]
    decide +kernel
  have hid : Json.size (strJson s.id) ≤ 6 * 128 + 2 := by
    have hlen := (length_le_utf8Len job.request.id).trans hvalid.id_length
    have hsize := size_strJson_le s.id
    rw [h.labelled.id] at hsize ⊢
    omega
  have hcoverage : Json.size (.str (Schema.units s.coverage.name)) ≤ 10 := by
    cases s.coverage <;> decide +kernel
  have hreasons := size_codes_le s.reasons
  have hlength := h.reasoned.length_le
  have hhits := size_hits_le s.hits
  have hcounts := size_counts_le hvalid h
  have helapsed : Json.size s.elapsedMs.json ≤ 24 := by
    obtain ⟨elapsed, he⟩ := h.elapsed
    rw [he]
    exact hshort.elapsedMs elapsed
  have hsnapshot : Json.size (strJson s.policySnapshotHash) ≤ 6 * 64 + 2 := by
    obtain ⟨observations, hs⟩ := h.snapshot
    have hlen := length_hex (job.engine.sha256
      (Utf8.encode "jev-ignore-snapshot-v1".toList ++ [0] ++ observations.flatMap snapshotEntry))
    rw [hshort.sha256] at hlen
    have hsize := size_strJson_le s.policySnapshotHash
    rw [hs, snapshotHash] at hsize ⊢
    omega
  have hmatcher : Json.size (strJson s.matcherVersion) = 19 := by
    rw [h.labelled.matcherVersion]
    decide +kernel
  have hok : Json.size (.str (Schema.units "ok")) = 4 := by decide +kernel
  have hnames : escapedBytes (Schema.units "v") = 1 ∧ escapedBytes (Schema.units "id") = 2 ∧
      escapedBytes (Schema.units "status") = 6 ∧ escapedBytes (Schema.units "coverage") = 8 ∧
      escapedBytes (Schema.units "reasons") = 7 ∧ escapedBytes (Schema.units "matches") = 7 ∧
      escapedBytes (Schema.units "counts") = 6 ∧ escapedBytes (Schema.units "elapsedMs") = 9 ∧
      escapedBytes (Schema.units "policySnapshotHash") = 18 ∧
      escapedBytes (Schema.units "matcherVersion") = 14 := by decide +kernel
  rw [Success.json, size_structJson]
  simp only [fieldBytes, hnames]
  omega

/-- A failure is short, whatever its id. -/
theorem size_failure_le {f : Failure} (hv : f.v = 1) (hid : f.id.length ≤ 128) :
    Json.size f.json ≤ 2048 := by
  have hsize := size_strJson_le f.id
  have hcode := size_code_le f.code
  have hone : Json.size (.nat f.v) = 1 := by
    rw [hv]
    decide +kernel
  have herror : Json.size (.str (Schema.units "error")) = 7 := by decide +kernel
  have hnames : escapedBytes (Schema.units "v") = 1 ∧ escapedBytes (Schema.units "id") = 2 ∧
      escapedBytes (Schema.units "status") = 6 ∧ escapedBytes (Schema.units "code") = 4 := by decide +kernel
  rw [Failure.json, size_structJson]
  simp only [fieldBytes, hnames]
  omega

/-! ## §2 — the hits of a read. -/

/-- An entry of a directory leads to a path. -/
def leadsTo (path : Str) (p : Str × DirName) : Bool :=
  (Utf8.decode p.2.bytes).any fun name => child p.1 name == path

/-- The streams of a run yielded an entry that leads to a path. -/
def Entered (path : Str) (log : List (Event φ)) : Prop := ∃ p ∈ namesOf log, leadsTo path p = true

/-- They yielded at most one. -/
def MetOnce (path : Str) (log : List (Event φ)) : Prop := (namesOf log).countP (leadsTo path) ≤ 1

theorem Entered.mono {path : Str} {log log' : List (Event φ)} (h : Entered path log)
    (hlog : log <+: log') : Entered path log' := by
  obtain ⟨p, hmem, hleads⟩ := h
  obtain ⟨added, rfl⟩ := hlog
  refine ⟨p, ?_, hleads⟩
  rw [namesOf_append]
  exact List.mem_append_left _ hmem

theorem MetOnce.before {path : Str} {log log' : List (Event φ)} (h : MetOnce path log')
    (hlog : log <+: log') : MetOnce path log := by
  obtain ⟨added, rfl⟩ := hlog
  rw [MetOnce, namesOf_append, List.countP_append] at h
  exact (Nat.le_add_right _ _).trans h

theorem leadsTo_iff {path : Str} {p : Str × DirName} :
    leadsTo path p = true ↔ ∃ name, Utf8.decode p.2.bytes = some name ∧ child p.1 name = path := by
  rw [leadsTo, Option.any_eq_true]
  constructor
  · rintro ⟨name, hname, hpath⟩
    exact ⟨name, hname, beq_iff_eq.1 hpath⟩
  · rintro ⟨name, hname, hpath⟩
    exact ⟨name, hname, beq_iff_eq.2 hpath⟩

/-- The entry of a path is determined by the path. -/
theorem leadsTo_injective {path : Str} {p q : Str × DirName} (hp : leadsTo path p = true)
    (hq : leadsTo path q = true) : p = q := by
  obtain ⟨name, hname, hpath⟩ := leadsTo_iff.1 hp
  obtain ⟨name', hname', hpath'⟩ := leadsTo_iff.1 hq
  have hslash := slash_notMem_name hname
  have hslash' := slash_notMem_name hname'
  have hdir : q.1 = p.1 := by
    calc q.1 = parentOf (child q.1 name') := (parentOf_child hslash').symm
      _ = parentOf (child p.1 name) := by rw [hpath', hpath]
      _ = p.1 := parentOf_child hslash
  have hnames : name' = name := by
    rw [← hdir] at hpath
    exact child_injective (hpath'.trans hpath.symm)
  rw [hnames] at hname'
  exact Prod.ext hdir.symm (DirName.eq_of_decode hname hname')

/-- Where no entry repeats, each path is met once. -/
theorem Distinct.metOnce {log : List (Event φ)} (h : Distinct log) (path : Str) : MetOnce path log := by
  have hone : ∀ {names : List (Str × DirName)}, names.Nodup → names.countP (leadsTo path) ≤ 1 := by
    intro names hnodup
    induction names with
    | nil => exact Nat.zero_le 1
    | cons p names ih =>
      obtain ⟨hnew, hrest⟩ := List.nodup_cons.1 hnodup
      by_cases hp : leadsTo path p = true
      · have hzero : names.countP (leadsTo path) = 0 := by
          rw [List.countP_eq_zero]
          intro q hq hleads
          exact hnew (leadsTo_injective hp hleads ▸ hq)
        rw [List.countP_cons_of_pos hp, hzero]
      · rw [List.countP_cons_of_neg hp]
        exact ih hrest
  exact hone h

theorem namesOf_note (log : List (Event φ)) (dir : Str) (n : DirName) :
    namesOf (log ++ [.entry dir (.name n)]) = namesOf log ++ [(dir, n)] := by
  rw [namesOf_append]
  rfl

/-- The entry of a path that is met once is new. -/
theorem entered_new {path dir name : Str} {n : DirName} {log : List (Event φ)}
    (hname : Utf8.decode n.bytes = some name) (hpath : child dir name = path)
    (honce : MetOnce path (log ++ [.entry dir (.name n)])) : ¬Entered path log := by
  rintro ⟨p, hmem, hleads⟩
  have hone : [(dir, n)].countP (leadsTo path) = 1 :=
    List.countP_cons_of_pos (leadsTo_iff.2 ⟨name, hname, hpath⟩)
  have hpos : 0 < (namesOf log).countP (leadsTo path) := List.countP_pos_iff.2 ⟨p, hmem, hleads⟩
  rw [MetOnce, namesOf_note, List.countP_append, hone] at honce
  omega

/-- What a read keeps: at most one hit, and none before its file was met. -/
structure Single (path : Str) (s : State σ φ) : Prop where
  most : s.result.hits.length ≤ 1
  met : s.result.hits ≠ [] → Entered path s.world.log

/-- At the entry of the file, the read has no hit. -/
structure Ahead (path : Str) (s : State σ φ) : Prop where
  met : Entered path s.world.log
  none : s.result.hits = []

section Once

variable {path : Str} {s s' : State σ φ}

/-- Where the entry of the file is met once. -/
theorem Single.later (h : MetOnce path s.world.log → Single path s) (hlog : s.world.log <+: s'.world.log)
    (hhits : s'.result.hits = s.result.hits) : MetOnce path s'.world.log → Single path s' := by
  intro honce
  have hs := h (honce.before hlog)
  constructor
  · rw [hhits]
    exact hs.most
  · rw [hhits]
    exact fun hne => (hs.met hne).mono hlog

theorem Ahead.later (h : MetOnce path s.world.log → Ahead path s) (hlog : s.world.log <+: s'.world.log)
    (hhits : s'.result.hits = s.result.hits) : MetOnce path s'.world.log → Ahead path s' := by
  intro honce
  have hs := h (honce.before hlog)
  exact ⟨hs.met.mono hlog, hhits.trans hs.none⟩

end Once

/-- **That a read has one hit at most is an invariant of its walk**, where its file is met once. -/
def single (job : Job σ φ) (read : ReadRequest) (hread : job.request.read = some read) :
    Invariant job where
  Inv _ _ s := MetOnce read.path s.world.log → Single read.path s
  Named dir name s := child dir name = read.path → MetOnce read.path s.world.log → Ahead read.path s
  Clear _ path s := path = read.path → MetOnce read.path s.world.log → Ahead read.path s
  spare h := h
  leave h := h
  called h hw := Single.later h hw.le rfl
  named_called h hw hpath := Ahead.later (h hpath) hw.le rfl
  clear_called h hw hpath := Ahead.later (h hpath) hw.le rfl
  entered dir := entered_of dir fun _ _ _ h hlog _ => Single.later h.1 hlog rfl
  ended _ _ _ h := Single.later h (List.prefix_append _ _) rfl
  named _ h := Single.later h (List.prefix_append _ _) rfl
  named_name {_ _ s dir n name} h _ hname hpath honce := by
    have hlog : s.world.log <+: s.world.log ++ [.entry dir (.name n)] := List.prefix_append _ _
    have hs := h (honce.before hlog)
    refine ⟨⟨(dir, n), ?_, leadsTo_iff.2 ⟨name, hname, hpath⟩⟩, ?_⟩
    · show (dir, n) ∈ namesOf (s.world.log ++ [.entry dir (.name n)])
      rw [namesOf_note]
      exact List.mem_append_right _ List.mem_cons_self
    · -- a hit would have met this very entry before
      by_contra hne
      exact entered_new hname hpath honce (hs.met hne)
  visited h _ := Single.later h (List.prefix_refl _) rfl
  named_visited h hpath := Ahead.later (h hpath) (List.prefix_refl _) rfl
  excluded h := Single.later h (List.prefix_refl _) rfl
  failed h _ := Single.later h (List.prefix_refl _) rfl
  tooDeep h := Single.later h (List.prefix_refl _) rfl
  checked _ h _ _ := Single.later h (List.prefix_append _ _) rfl
  clear_checked _ h _ _ hpath := Ahead.later (h hpath) (List.prefix_append _ _) rfl
  searched h _ _ _ := Single.later h (List.prefix_append _ _) rfl
  clear_searched h hpath := Ahead.later (h hpath) (List.prefix_append _ _) rfl
  found _ _ _ _ hnone := by
    rw [hread] at hnone
    cases hnone
  clear_found hnone := by
    rw [hread] at hnone
    cases hnone
  read {_ _ s bytes read'} _ hclear _ _ hread' _ _ _ _ _ honce := by
    have heq : read' = read := Option.some.inj (hread'.symm.trans hread)
    subst heq
    have hahead := hclear rfl honce
    refine ⟨?_, fun _ => hahead.met⟩
    show (s.result.hits ++ [_]).length ≤ 1
    rw [hahead.none]
    exact Nat.le_refl 1

/-- **A read has one hit at most** where the entry of its file is met once. -/
theorem search_single {engine : Engine} {os : Os σ φ} {root : φ} {r : Request} {read : ReadRequest}
    {state : σ} {w' : World σ φ} {success : Success} (hread : r.read = some read)
    (h : search engine os root r ⟨state, []⟩ = (.ok success, w')) (honce : MetOnce read.path w'.log) :
    success.hits.length ≤ 1 := by
  obtain ⟨matcher, scope, -, -, -, started, w₁, s', hw₁, hrun, hw'⟩ := search_ok h
  generalize started + r.deadlineMs * 1000000 = deadline at hrun
  have hroot : ([] : Str) = read.path → False := fun hnil => by
    obtain ⟨matcher', scope', hvalid, -⟩ := search_ok h
    have hpath := ((validate_ok hvalid).read read hread).1
    rw [← hnil] at hpath
    exact absurd hpath (by decide)
  have hjob : ({ engine, os, root, request := r, deadline, matcher } : Job σ φ).request.read = some read :=
    hread
  have hstart : (single _ read hjob).Inv [] 0
      { world := w₁, scope, result := Success.empty r.id, usedBytes := 2048 } :=
    fun _ => ⟨Nat.zero_le 1, fun hne => absurd rfl hne⟩
  obtain ⟨walked, sorted, ended, hwalked, hconcluded⟩ :=
    conclude_ok (single _ read hjob) hstart (fun hnil => (hroot hnil).elim) hrun
  have hlog : walked.world.log <+: w'.log := by
    rw [← hw']
    exact hconcluded.le
  have hsingle := hwalked (honce.before hlog)
  rw [hconcluded.hits]
  exact hsingle.most

/-! ## §3 — replies. -/

theorem size_reply_error (r : Request) (code : Code) : Json.size (reply r (.error code)) ≤ 2048 := by
  rw [reply]
  exact size_failure_le rfl (List.length_take_le 128 r.id)

theorem size_invalidReply : Json.size invalidReply ≤ 2048 := by
  rw [invalidReply]
  exact size_failure_le rfl (by decide)

/-- The one hit of a read was compared with the budget. -/
theorem chargeOf_le {job : Job σ φ} {log : List (Event φ)} {s : Success}
    (h : Promised job log s) (hbudget : 2048 ≤ job.request.responseBytes)
    (hone : job.request.read = none ∨ s.hits.length ≤ 1) :
    2048 + chargeOf s.hits ≤ job.request.responseBytes := by
  rcases hone with hread | hone
  · exact h.charged hread
  · cases hhits : s.hits with
    | nil => exact hbudget
    | cons hit rest =>
      rw [hhits] at hone
      have hrest : rest = [] := by simpa using hone
      subst hrest
      have hfits := (h.evidenced hit (by rw [hhits]; exact List.mem_cons_self)).fits
      show 2048 + (hit.size + 0) ≤ _
      exact hfits

/-- A success is within its budget, of a read when the entry of its file is met once. -/
theorem size_reply_ok {engine : Engine} {os : Os σ φ} {root : φ} {r : Request} {state : σ}
    {w' : World σ φ} {success : Success} (hshort : engine.Short)
    (h : search engine os root r ⟨state, []⟩ = (.ok success, w'))
    (honce : ∀ read, r.read = some read → MetOnce read.path w'.log) :
    Json.size success.json ≤ r.responseBytes ∧ r.responseBytes ≤ FRAME_CAP := by
  obtain ⟨matcher, deadline, -, hpromised⟩ := search_promised h
  obtain ⟨matcher', scope, hchecked, -⟩ := search_ok h
  have hvalid := validate_ok hchecked
  have hone : r.read = none ∨ success.hits.length ≤ 1 := by
    cases hread : r.read with
    | none => exact .inl rfl
    | some read => exact .inr (search_single hread h (honce read hread))
  have hcharge := chargeOf_le hpromised hvalid.responseBytes.1 hone
  exact ⟨(size_success_le hvalid hshort hpromised).trans hcharge, hvalid.responseBytes.2⟩

/-- **A reply is within its budget**: a failure always, a success of a search, and a success of a read in
whose run the streams yield at most one entry that leads to its file. It is then within the cap of a frame. -/
theorem reply_bounded {engine : Engine} {os : Os σ φ} {root : φ} {r : Request} {state : σ}
    {w' : World σ φ} {out : Except Code Success} (hshort : engine.Short)
    (h : search engine os root r ⟨state, []⟩ = (out, w'))
    (honce : ∀ read, r.read = some read → MetOnce read.path w'.log) :
    (∀ code, out = .error code → (toVec (reply r out)).length ≤ 2048) ∧
    (∀ success, out = .ok success → (toVec (reply r out)).length ≤ r.responseBytes) ∧
    (toVec invalidReply).length ≤ 2048 ∧
    (writeFrame (reply r out)).isSome = true ∧ (writeFrame invalidReply).isSome = true := by
  have hframe : ∀ {v : Json}, Json.size v ≤ FRAME_CAP → (writeFrame v).isSome = true := by
    intro v hv
    rw [writeFrame, length_toVec, if_neg (Nat.not_lt.2 hv)]
    rfl
  have hinvalid : (toVec invalidReply).length ≤ 2048 := by
    rw [length_toVec]
    exact size_invalidReply
  have hframe' : (writeFrame invalidReply).isSome = true := hframe (size_invalidReply.trans (by decide))
  rcases out with code | success
  · have hsize := size_reply_error r code
    refine ⟨fun _ _ => ?_, fun _ hs => (by cases hs), hinvalid, hframe (hsize.trans (by decide)), hframe'⟩
    rw [length_toVec]
    exact hsize
  · obtain ⟨hsize, hcap⟩ := size_reply_ok hshort h honce
    refine ⟨fun _ hc => (by cases hc), fun _ _ => ?_, hinvalid,
      hframe (hsize.trans hcap), hframe'⟩
    rw [length_toVec]
    exact hsize

/-- A read of one byte with little room. -/
def tightRead : Request :=
  { Request.readOf (.byte ['a'] 1 oneFileText) with responseBytes := 2300, maxEntries := 11 }

theorem short_plain : Engine.plain.Short where
  sha256 := Sha256.length_digest
  elapsedMs _ := by
    show Json.size (.nat 0) ≤ 24
    decide +kernel

/-- A directory that yields one file, and another one twice. -/
def otherTwice : Node := .dir [(.ofStr ['a'] slash_not_mem_a, .file oneFileText),
  (.ofStr ['b'], .file oneFileText), (.ofStr ['b'], .file oneFileText)]

theorem reply_bounded_otherTwice : ∃ success w',
    search Engine.plain otherTwice.os otherTwice tightRead ⟨0, []⟩ = (.ok success, w') ∧ ¬Distinct w'.log ∧
      (toVec (reply tightRead (.ok success))).length ≤ 2300 := by
  have hrun : (search Engine.plain otherTwice.os otherTwice tightRead ⟨0, []⟩).1.toOption.isSome = true := by
    decide +kernel
  have hnames : ¬(namesOf (search Engine.plain otherTwice.os otherTwice tightRead ⟨0, []⟩).2.log).Nodup := by
    decide +kernel
  have honce : (namesOf (search Engine.plain otherTwice.os otherTwice tightRead ⟨0, []⟩).2.log).countP
      (leadsTo ['a']) ≤ 1 := by decide +kernel
  rcases h : search Engine.plain otherTwice.os otherTwice tightRead ⟨0, []⟩ with ⟨e | success, w'⟩
  · rw [h] at hrun
    cases hrun
  · rw [h] at hnames honce
    obtain ⟨-, hfits, -⟩ := reply_bounded short_plain h fun read hread => by
      obtain rfl := Option.some.inj hread
      exact honce
    exact ⟨success, w', rfl, hnames, hfits success rfl⟩

/-! ## §4 — a stream that repeats a name. -/

/-- A directory that yields the name of its file eleven times. -/
def elevenTimes : Node :=
  .dir (List.replicate 11 (.ofStr ['a'] slash_not_mem_a, .file oneFileText))

/-- **A read is not held to its budget**: every time its file is met it pushes a hit, and each hit is
compared with the budget alone. -/
theorem elevenTimes_exceeds : ∃ success w',
    search Engine.plain elevenTimes.os elevenTimes tightRead ⟨0, []⟩ = (.ok success, w') ∧
      tightRead.responseBytes < (toVec (reply tightRead (.ok success))).length := by
  have hrun : (search Engine.plain elevenTimes.os elevenTimes tightRead ⟨0, []⟩).1.toOption.map
      (fun s => Json.size s.json) = some 2383 := by decide +kernel
  rcases h : search Engine.plain elevenTimes.os elevenTimes tightRead ⟨0, []⟩ with ⟨e | success, w'⟩
  · rw [h] at hrun
    cases hrun
  · rw [h] at hrun
    have hsize : Json.size success.json = 2383 := Option.some.inj hrun
    refine ⟨success, w', rfl, ?_⟩
    rw [length_toVec, reply, hsize]
    decide

end JevGrep.Worker
