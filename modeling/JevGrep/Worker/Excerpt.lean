/-
# `JevGrep.Worker.Excerpt` — ranges and excerpts of a captured text.

A captured text is sliced at character boundaries only, so no slice of it panics, and what a hit shows
of a file are bytes of that file. §1 slices; §2 the cut of an excerpt; §3 hits.
-/
import JevGrep.Worker.Result

namespace JevGrep.Worker

open JevGrep.Lib
open JevGrep.Lib.Utf16 (utf8Len)
open Exec (Keeps Triple)

variable {σ φ : Type}

/-! ## §1 — slices. -/

theorem isText_iff {bytes : Bytes} : isText bytes = true ↔
    0 ∉ bytes ∧ ∃ cs, bytes = Utf8.encode cs := by
  have hcontains : bytes.contains 0 = true ↔ 0 ∈ bytes := List.contains_iff_mem
  rw [isText, Bool.and_eq_true, Bool.not_eq_true', ← Bool.not_eq_true, hcontains,
    Option.isSome_iff_exists]
  exact and_congr_right fun _ => exists_congr fun _ => Utf8.decode_eq_some

theorem isCharBoundary_iff {cs : List Char} {i : Nat} : isCharBoundary (Utf8.encode cs) i = true ↔
    ∃ pre post, cs = pre ++ post ∧ (Utf8.encode pre).length = i := by
  by_cases hzero : i = 0
  · subst hzero
    exact ⟨fun _ => ⟨[], cs, rfl, rfl⟩, fun _ => rfl⟩
  · rw [Utf8.boundary_iff, isCharBoundary, Bool.or_eq_true, beq_iff_eq, or_iff_right hzero]
    rcases hget : (Utf8.encode cs)[i]? with _ | b
    · simp
    · have hlt : i < (Utf8.encode cs).length := (List.getElem?_eq_some_iff.1 hget).1
      simp only [Bool.not_eq_true', Option.some.injEq, exists_eq_left']
      exact ⟨.inr, fun h => h.resolve_left (Nat.ne_of_lt hlt)⟩

theorem le_of_isCharBoundary {bytes : Bytes} {i : Nat} (h : isCharBoundary bytes i = true) :
    i ≤ bytes.length := by
  rw [isCharBoundary, Bool.or_eq_true, beq_iff_eq] at h
  rcases h with rfl | h
  · exact Nat.zero_le _
  · rcases hget : bytes[i]? with _ | b
    · rw [hget] at h
      exact Nat.le_of_eq (beq_iff_eq.1 h)
    · exact Nat.le_of_lt (List.getElem?_eq_some_iff.1 hget).1

/-- `text[start..stop]` does not panic. -/
structure Sliceable (bytes : Bytes) (start stop : Nat) : Prop where
  ordered : start ≤ stop
  first : isCharBoundary bytes start = true
  last : isCharBoundary bytes stop = true

/-- A slice at boundaries is a text, with the bytes of the range. -/
theorem Sliceable.decode {bytes : Bytes} {start stop : Nat} (h : Sliceable bytes start stop)
    (htext : isText bytes = true) :
    Utf8.decode ((bytes.take stop).drop start) = some (slice bytes start stop) := by
  obtain ⟨-, cs, rfl⟩ := isText_iff.1 htext
  obtain ⟨pre, post, hsplit, hpre⟩ := isCharBoundary_iff.1 h.first
  obtain ⟨pre', post', hsplit', hpre'⟩ := isCharBoundary_iff.1 h.last
  -- the text before `start` is the beginning of the text before `stop`
  have hmid : ∃ mid, pre' = pre ++ mid := by
    rcases List.append_eq_append_iff.1 (hsplit.symm.trans hsplit') with ⟨mid, hmid, -⟩ | ⟨mid, hmid, -⟩
    · exact ⟨mid, hmid⟩
    · have hlen : (Utf8.encode mid).length = 0 := by
        have hordered := h.ordered
        rw [← hpre, ← hpre', hmid, Utf8.encode_append, List.length_append] at hordered
        omega
      have hnil : mid = [] := Utf8.encode_injective (List.length_eq_zero_iff.1 hlen)
      exact ⟨[], by rw [hmid, hnil, List.append_nil, List.append_nil]⟩
  obtain ⟨mid, rfl⟩ := hmid
  have hbytes : ((Utf8.encode cs).take stop).drop start = Utf8.encode mid := by
    rw [hsplit', Utf8.encode_append, ← hpre', List.take_left, Utf8.encode_append, ← hpre, List.drop_left]
  rw [slice, hbytes, Utf8.decode_encode]
  rfl

theorem Sliceable.encode {bytes : Bytes} {start stop : Nat} (h : Sliceable bytes start stop)
    (htext : isText bytes = true) :
    Utf8.encode (slice bytes start stop) = (bytes.take stop).drop start :=
  (Utf8.decode_eq_some.1 (h.decode htext)).symm

theorem Sliceable.utf8Len {bytes : Bytes} {start stop : Nat} (h : Sliceable bytes start stop)
    (htext : isText bytes = true) : utf8Len (slice bytes start stop) = stop - start := by
  rw [← Utf8.length_encode, h.encode htext, List.length_drop, List.length_take,
    Nat.min_eq_left (le_of_isCharBoundary h.last)]

/-! ## §2 — the cut of an excerpt. -/

theorem boundaryBelow_le (bytes : Bytes) (n : Nat) : boundaryBelow bytes n ≤ n := by
  induction n with
  | zero => exact Nat.le_refl 0
  | succ n ih =>
    rw [boundaryBelow]
    split
    · exact Nat.le_refl _
    · exact Nat.le_succ_of_le ih

theorem isCharBoundary_boundaryBelow (bytes : Bytes) (n : Nat) :
    isCharBoundary bytes (boundaryBelow bytes n) = true := by
  induction n with
  | zero => rfl
  | succ n ih =>
    rw [boundaryBelow]
    split
    case isTrue h => exact h
    case isFalse => exact ih

/-- The cut moves back to the nearest boundary, past none. -/
theorem le_boundaryBelow {bytes : Bytes} {m : Nat} (hm : isCharBoundary bytes m = true) :
    ∀ {n : Nat}, m ≤ n → m ≤ boundaryBelow bytes n
  | 0, h => h
  | n + 1, h => by
      rw [boundaryBelow]
      split
      case isTrue => exact h
      case isFalse hcut =>
        apply le_boundaryBelow hm
        rcases Nat.lt_or_eq_of_le h with hlt | rfl
        · exact Nat.le_of_lt_succ hlt
        · exact absurd hm hcut

/-- Where an excerpt ends. -/
def excerptEnd (bytes : Bytes) (start stop : Nat) : Nat := boundaryBelow bytes (min stop (start + 4096))

theorem sliceable_excerpt {bytes : Bytes} {start stop : Nat} (h : Sliceable bytes start stop) :
    Sliceable bytes start (excerptEnd bytes start stop) where
  ordered := le_boundaryBelow h.first (Nat.le_min.2 ⟨h.ordered, Nat.le_add_right _ _⟩)
  first := h.first
  last := isCharBoundary_boundaryBelow _ _

theorem excerptEnd_le (bytes : Bytes) (start stop : Nat) :
    excerptEnd bytes start stop ≤ stop ∧ excerptEnd bytes start stop ≤ start + 4096 := by
  have h := boundaryBelow_le bytes (min stop (start + 4096))
  exact ⟨h.trans (Nat.min_le_left _ _), h.trans (Nat.min_le_right _ _)⟩

/-! ## §3 — hits. -/

/-- Hit and file agree: the range and the excerpt are slices of the file, and the excerpt is cut where
it has to be. -/
structure WellCut (engine : Engine) (bytes : Bytes) (hit : Hit) : Prop where
  path : validPath hit.path = true
  digest : hit.fileSha256 = hex (engine.sha256 bytes)
  range : Sliceable bytes hit.range.start hit.range.stop
  excerpt : Sliceable bytes hit.excerpt.range.start hit.excerpt.range.stop
  first : hit.excerpt.range.start = hit.range.start
  last : hit.excerpt.range.stop ≤ hit.range.stop
  short : hit.excerpt.range.stop ≤ hit.excerpt.range.start + 4096
  text : hit.excerpt.text = slice bytes hit.excerpt.range.start hit.excerpt.range.stop
  truncated : hit.excerpt.truncated = decide (hit.excerpt.range.stop ≠ hit.range.stop)

/-- The matches of a file lie within it, in order. -/
def Located (matcher : Bytes → List (Nat × Nat)) (bytes : Bytes) : Prop :=
  ∀ m ∈ matcher bytes, m.1 ≤ m.2 ∧ m.2 ≤ bytes.length

/-- **Every hit is well cut.** -/
theorem Reported.wellCut {job : Job σ φ} {bytes : Bytes} {hit : Hit} (h : Reported job bytes hit)
    (hvalid : Valid job.request) (hmatches : Located job.matcher bytes) :
    WellCut job.engine bytes hit := by
  cases h with
  | found path start stop search valid matched shown first last =>
    have hslice : Sliceable bytes start stop := ⟨(hmatches _ matched).1, first, last⟩
    obtain ⟨hle, hshort⟩ := excerptEnd_le bytes start stop
    exact ⟨valid, rfl, hslice, sliceable_excerpt hslice, rfl, hle, hshort, rfl, rfl⟩
  | read read asked valid expected inside first last =>
    obtain ⟨-, hordered, -, hshort⟩ := hvalid.read read asked
    have hslice : Sliceable bytes read.range.start read.range.stop := ⟨hordered, first, last⟩
    refine ⟨valid, rfl, hslice, hslice, rfl, Nat.le_refl _, ?_, rfl, ?_⟩
    · show read.range.stop ≤ read.range.start + 4096
      omega
    · simp [readHit]

namespace WellCut

variable {engine : Engine} {bytes : Bytes} {hit : Hit}

/-- The excerpt is the bytes of its range. -/
theorem encode_text (h : WellCut engine bytes hit) (htext : isText bytes = true) :
    Utf8.encode hit.excerpt.text = (bytes.take hit.excerpt.range.stop).drop hit.excerpt.range.start := by
  rw [h.text]
  exact h.excerpt.encode htext

theorem utf8Len_text (h : WellCut engine bytes hit) (htext : isText bytes = true) :
    utf8Len hit.excerpt.text = hit.excerpt.range.stop - hit.excerpt.range.start := by
  rw [h.text]
  exact h.excerpt.utf8Len htext

theorem stop_le (h : WellCut engine bytes hit) : hit.range.stop ≤ bytes.length :=
  le_of_isCharBoundary h.range.last

end WellCut

/-! ## §4 — what the search of a file pushes. -/

section Pushed

variable {job : Job σ φ} {path : Str} {bytes : Bytes} {before : List Hit}

/-- The hits are those of `before`, and behind them some that `bytes` can give. -/
def Pushed (job : Job σ φ) (bytes : Bytes) (before : List Hit) (s : State σ φ) : Prop :=
  ∃ new, s.result.hits = before ++ new ∧ ∀ hit ∈ new, Reported job bytes hit

theorem Pushed.push {s : State σ φ} {hit : Hit} (h : Pushed job bytes before s)
    (hhit : Reported job bytes hit) : Pushed job bytes before (s.push hit) := by
  obtain ⟨new, hnew, hall⟩ := h
  refine ⟨new ++ [hit], ?_, fun x hx => ?_⟩
  · show s.result.hits ++ [hit] = _
    rw [hnew, List.append_assoc]
  · rcases List.mem_append.1 hx with hx | hx
    · exact hall x hx
    · rw [List.mem_singleton.1 hx]
      exact hhit

/-- A call pushes nothing. -/
theorem pushed_inTime : Keeps (Pushed job bytes before) (inTime job) := by
  show Triple _ (Work.io (expired job.os job.deadline)) _ _
  refine Triple.onPart (Triple.anyhow (expired job.os job.deadline)) (fun _ _ => trivial) ?_ ?_
  · exact fun _ _ _ h _ => h
  · exact fun _ _ _ h _ => h

theorem pushed_findIter (hread : job.request.read = none) (hpath : validPath path = true) :
    ∀ found : List (Nat × Nat), (∀ m ∈ found, m ∈ job.matcher bytes) →
      Keeps (Pushed job bytes before) (findIter job path (hex (job.engine.sha256 bytes)) bytes found)
  | [], _ => Keeps.pure _
  | (start, stop) :: rest, hsub => by
      have htail := pushed_findIter hread hpath rest fun m hm =>
        hsub m (List.mem_cons_of_mem _ hm)
      refine Keeps.bind pushed_inTime fun _ => Triple.ite (fun _ => htail) fun hshown => ?_
      refine Keeps.bind (Keeps.get_bind fun _ => Triple.ite (fun _ => Keeps.fail _) fun hbounds =>
        Triple.ite (fun _ => Keeps.fail _) fun _ => Keeps.get_bind fun _ =>
          Triple.ite (fun _ => Keeps.fail _) fun _ => Keeps.modify fun s hs => ?_) fun _ => htail
      rw [Bool.not_eq_true', Bool.not_eq_false, Bool.and_eq_true] at hbounds
      exact Pushed.push hs (.found path start stop hread hpath (hsub _ List.mem_cons_self)
        (Bool.not_eq_true _ ▸ hshown) hbounds.1 hbounds.2)

theorem pushed_searchBytes (hpath : validPath path = true)
    (hread : ∀ read, job.request.read = some read → read.path = path) :
    Keeps (Pushed job bytes before) (searchBytes job path bytes) := by
  refine Keeps.bind pushed_inTime fun _ => Keeps.bind (Keeps.modify fun _ h => h) fun _ => ?_
  cases hr : job.request.read with
  | some read =>
    have hp := hread read hr
    subst hp
    refine Keeps.get_bind fun _ => Triple.ite (fun _ => Keeps.fail _) fun hdigest =>
      Triple.ite (fun _ => Keeps.fail _) fun hbounds => Triple.ite (fun _ => Keeps.fail _) fun _ =>
        Keeps.modify fun s hs => ?_
    simp only [gt_iff_lt, Bool.or_eq_true, decide_eq_true_eq, Bool.not_eq_true', not_or, not_lt,
      Bool.not_eq_false] at hbounds
    refine Pushed.push hs (.read read hr hpath (fun digest hd => ?_) hbounds.1.1 hbounds.1.2 hbounds.2)
    rw [hd] at hdigest
    simpa using hdigest
  | none =>
    exact Triple.ite (fun _ => Keeps.pure _) fun _ => pushed_findIter hr hpath _ fun _ hm => hm

/-- Every hit that `search_file` pushes is one that the captured content can give. -/
theorem searchFile_pushed {fd : φ} (hpath : validPath path = true) {s s' : State σ φ}
    {r : Except Code Unit} (h : searchFile job fd path s = (r, s')) :
    ∃ new, s'.result.hits = s.result.hits ++ new ∧ ∀ hit ∈ new, ∃ bytes w,
      captureTwice job fd path s.world = (.ok (some bytes), w) ∧ Reported job bytes hit := by
  have hnone : ∀ {t : State σ φ}, t.result.hits = s.result.hits → ∃ new : List Hit,
      t.result.hits = s.result.hits ++ new ∧ ∀ hit ∈ new, ∃ bytes w,
        captureTwice job fd path s.world = (.ok (some bytes), w) ∧ Reported job bytes hit :=
    fun ht => ⟨[], by rw [ht, List.append_nil], by simp⟩
  unfold searchFile at h
  split at h
  case isTrue =>
    obtain ⟨-, rfl⟩ := Prod.mk.inj h
    exact hnone rfl
  case isFalse hread =>
    obtain ⟨⟨out, w⟩, hrun⟩ : ∃ run, captureTwice job fd path s.world = run := ⟨_, rfl⟩
    rcases out with code | content
    · have hout : (.attempt (Work.io (captureTwice job fd path)) : Work σ φ _) s
          = (.ok (.error code), { s with world := w }) := by
        rw [Exec.attempt_run, Work.io, Exec.onPart_run, hrun]
      rw [Exec.bind_of_ok hout] at h
      cases code
      all_goals
        obtain ⟨-, rfl⟩ := Prod.mk.inj h
        exact hnone rfl
    · have hout : (.attempt (Work.io (captureTwice job fd path)) : Work σ φ _) s
          = (.ok (.ok content), { s with world := w }) := by
        rw [Exec.attempt_run, Work.io, Exec.onPart_run, hrun]
      rw [Exec.bind_of_ok hout] at h
      rcases content with _ | bytes
      · obtain ⟨-, rfl⟩ := Prod.mk.inj h
        exact hnone rfl
      · have hpath' : ∀ read, job.request.read = some read → read.path = path := fun read hr => by
          rw [hr] at hread
          simpa using hread
        have hbytes : Keeps (Pushed job bytes s.result.hits) (searchBytes job path bytes) :=
          pushed_searchBytes hpath hpath'
        have hkeeps := hbytes { s with world := w } ⟨[], (List.append_nil _).symm, by simp⟩
        have hpushed : Pushed job bytes s.result.hits s' := by
          change searchBytes job path bytes { s with world := w } = (r, s') at h
          rw [h] at hkeeps
          rcases r with _ | _ <;> exact hkeeps
        obtain ⟨new, hnew, hall⟩ := hpushed
        exact ⟨new, hnew, fun hit hh => ⟨bytes, w, hrun, hall hit hh⟩⟩

end Pushed

end JevGrep.Worker
