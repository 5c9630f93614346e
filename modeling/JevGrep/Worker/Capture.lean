/-
# `JevGrep.Worker.Capture` — a capture reads one revision, and a bounded part of it.

The read loop of `capture` asks for one byte more than the limit leaves, so that a file that grows is
noticed by reading and not by its size. §1 what the log says of a capture; §2 the loop without a count
of rounds, and its end; §3 what the loop reads; §4 `capture`; §5 the captures of a file visit.
-/
import JevGrep.Worker.Excerpt

namespace JevGrep.Worker

open JevGrep.Lib
open Exec (Adds bind_of_ok bind_of_error)

variable {σ φ α : Type}

/-! ## §1 — what the log says of a capture. -/

/-- `(st_dev, st_ino, st_size, st_mtime, st_mtime_nsec, st_ctime, st_ctime_nsec)`. -/
def Stat.revision (s : Stat) : Nat × Nat × Int × Int × Int × Int × Int :=
  (s.dev, s.ino, s.size, s.mtime, s.mtimeNsec, s.ctime, s.ctimeNsec)

theorem sameRevision_iff {a b : Stat} : sameRevision a b = true ↔ a.revision = b.revision := by
  simp [sameRevision, Stat.revision, and_assoc]

/-- The size of the buffer a read was given, and what it returned. -/
def Event.asRead : Event φ → Option (Nat × Option Bytes)
  | .read _ wanted outcome => some (wanted, outcome)
  | _ => none

/-- What an `fstat` that did not fail observed. -/
def Event.asStat : Event φ → Option Stat
  | .stat _ outcome => outcome
  | _ => none

/-- The reads, and the revisions, that some calls saw. -/
def readsOf (calls : List (Event φ)) : List (Nat × Option Bytes) := calls.filterMap Event.asRead

def statsOf (calls : List (Event φ)) : List Stat := calls.filterMap Event.asStat

/-- The bytes that the reads returned, one read after the other. -/
def contentOf (reads : List (Nat × Option Bytes)) : Bytes := reads.flatMap fun r => r.2.getD []

/-- Each read asks for what the buffer holds of the bytes that are left, with `taken` bytes there: the
subtraction `limit + 1 - taken` is one of a smaller number, and what it leaves is not 0. -/
def Asked (limit : Nat) : Nat → List (Nat × Option Bytes) → Prop
  | _, [] => True
  | taken, (wanted, outcome) :: rest =>
      taken ≤ limit ∧ wanted = min CHUNK (limit + 1 - taken) ∧ 0 < wanted ∧
        (outcome.getD []).length ≤ wanted ∧ Asked limit (taken + (outcome.getD []).length) rest

/-- Every read succeeded; the last one found the end of the file, and none before it did. -/
def ToEnd (reads : List (Nat × Option Bytes)) (content : Bytes) : Prop :=
  ∃ chunks : List Bytes, (∀ c ∈ chunks, c ≠ []) ∧
    reads.map Prod.snd = chunks.map some ++ [some []] ∧ content = chunks.flatten

/-- The records of the reads of one handle. -/
def readCalls (fd : φ) (reads : List (Nat × Option Bytes)) : List (Event φ) :=
  reads.map fun r => .read fd r.1 r.2

@[simp] theorem readsOf_append (calls calls' : List (Event φ)) :
    readsOf (calls ++ calls') = readsOf calls ++ readsOf calls' := List.filterMap_append

@[simp] theorem statsOf_append (calls calls' : List (Event φ)) :
    statsOf (calls ++ calls') = statsOf calls ++ statsOf calls' := List.filterMap_append

@[simp] theorem readsOf_readCalls (fd : φ) : ∀ reads, readsOf (readCalls fd reads) = reads
  | [] => rfl
  | r :: reads => congrArg (r :: ·) (readsOf_readCalls fd reads)

@[simp] theorem statsOf_readCalls (fd : φ) : ∀ reads, statsOf (readCalls fd reads) = []
  | [] => rfl
  | _ :: reads => statsOf_readCalls fd reads

/-! ## §2 — the loop without a count of rounds, and its end. -/

section Loop

variable (os : Os σ φ) (deadline : Nat) (fd : φ) (limit : Nat)

/-- The `loop` of `capture`, from the bytes it has: one constructor for each way out of a round, and
one for the next round. A run that never ended would have no derivation. -/
inductive ReadLoop : Bytes → World σ φ → Except Code Bytes × World σ φ → Prop
  | late {bytes w e w'} (htime : expired os deadline w = (.error e, w')) :
      ReadLoop bytes w (.error e, w')
  | failed {bytes w w₁ e w'} (htime : expired os deadline w = (.ok (), w₁))
      (hread : readChunk os fd (min CHUNK (limit + 1 - bytes.length)) w₁ = (.error e, w')) :
      ReadLoop bytes w (.error e, w')
  | ended {bytes w w₁ w'} (htime : expired os deadline w = (.ok (), w₁))
      (hread : readChunk os fd (min CHUNK (limit + 1 - bytes.length)) w₁ = (.ok [], w')) :
      ReadLoop bytes w (.ok bytes, w')
  | beyond {bytes w w₁ chunk w'} (htime : expired os deadline w = (.ok (), w₁))
      (hread : readChunk os fd (min CHUNK (limit + 1 - bytes.length)) w₁ = (.ok chunk, w'))
      (hsome : chunk ≠ []) (hover : limit < (bytes ++ chunk).length) :
      ReadLoop bytes w (.error .sourceMutated, w')
  | again {bytes w w₁ chunk w₂ out} (htime : expired os deadline w = (.ok (), w₁))
      (hread : readChunk os fd (min CHUNK (limit + 1 - bytes.length)) w₁ = (.ok chunk, w₂))
      (hsome : chunk ≠ []) (hfits : (bytes ++ chunk).length ≤ limit)
      (hrest : ReadLoop (bytes ++ chunk) w₂ out) : ReadLoop bytes w out

end Loop

section Ends

variable {os : Os σ φ} {deadline : Nat} {fd : φ} {limit : Nat}

/-- **The loop comes to its end**, in the run that `readAll` makes: a round that goes on has read a
byte, and there is room for `limit` of them. -/
theorem readLoop_readAll : ∀ (rounds : Nat) (bytes : Bytes) (w : World σ φ), bytes.length ≤ limit →
    limit + 1 ≤ rounds + bytes.length →
      ReadLoop os deadline fd limit bytes w (readAll os deadline fd limit rounds bytes w)
  | 0, bytes, w, hle, hrounds => by omega
  | rounds + 1, bytes, w, hle, hrounds => by
      rw [readAll]
      rcases htime : expired os deadline w with ⟨e | u, w₁⟩
      · rw [bind_of_error htime]
        exact .late htime
      · rw [bind_of_ok htime]
        rcases hread : readChunk os fd (min CHUNK (limit + 1 - bytes.length)) w₁ with ⟨e | chunk, w₂⟩
        · rw [bind_of_error hread]
          exact .failed htime hread
        · rw [bind_of_ok hread]
          by_cases hempty : chunk.isEmpty = true
          · rw [if_pos hempty]
            obtain rfl := List.isEmpty_iff.1 hempty
            exact .ended htime hread
          · rw [if_neg hempty]
            have hsome : chunk ≠ [] := fun hnil => hempty (List.isEmpty_iff.2 hnil)
            by_cases hover : (bytes ++ chunk).length > limit
            · rw [if_pos hover]
              exact .beyond htime hread hsome hover
            · rw [if_neg hover]
              -- the bytes that are there have grown, so one round less is enough
              have hgrown : bytes.length + 1 ≤ (bytes ++ chunk).length := by
                have hpos := List.length_pos_iff.2 hsome
                rw [List.length_append]
                omega
              apply ReadLoop.again htime hread hsome (Nat.not_lt.1 hover)
              exact readLoop_readAll rounds _ w₂ (Nat.not_lt.1 hover) (by omega)

/-- The other way round: any run of the loop is the one that `readAll` makes. -/
theorem ReadLoop.run {bytes : Bytes} {w : World σ φ} {out : Except Code Bytes × World σ φ}
    (h : ReadLoop os deadline fd limit bytes w out) : ∀ {rounds : Nat}, bytes.length ≤ limit →
      limit + 1 ≤ rounds + bytes.length → readAll os deadline fd limit rounds bytes w = out := by
  induction h with
  | late htime =>
    intro rounds hle hrounds
    obtain ⟨k, rfl⟩ := Nat.exists_eq_succ_of_ne_zero (show rounds ≠ 0 by omega)
    rw [readAll, bind_of_error htime]
  | failed htime hread =>
    intro rounds hle hrounds
    obtain ⟨k, rfl⟩ := Nat.exists_eq_succ_of_ne_zero (show rounds ≠ 0 by omega)
    rw [readAll, bind_of_ok htime, bind_of_error hread]
  | ended htime hread =>
    intro rounds hle hrounds
    obtain ⟨k, rfl⟩ := Nat.exists_eq_succ_of_ne_zero (show rounds ≠ 0 by omega)
    rw [readAll, bind_of_ok htime, bind_of_ok hread]
    rfl
  | beyond htime hread hsome hover =>
    intro rounds hle hrounds
    obtain ⟨k, rfl⟩ := Nat.exists_eq_succ_of_ne_zero (show rounds ≠ 0 by omega)
    rw [readAll, bind_of_ok htime, bind_of_ok hread, if_neg (by rwa [List.isEmpty_iff]), if_pos hover]
    rfl
  | again htime hread hsome hfits hrest ih =>
    intro rounds hle hrounds
    obtain ⟨k, rfl⟩ := Nat.exists_eq_succ_of_ne_zero (show rounds ≠ 0 by omega)
    have hpos := List.length_pos_iff.2 hsome
    rw [readAll, bind_of_ok htime, bind_of_ok hread, if_neg (by rwa [List.isEmpty_iff]),
      if_neg (Nat.not_lt.2 hfits)]
    apply ih hfits
    rw [List.length_append]
    omega

end Ends

/-! ## §3 — what the loop reads. -/

section Reads

variable {os : Os σ φ} {deadline : Nat} {fd : φ} {limit : Nat}

/-- The clock is not recorded. -/
theorem expired_log {w w' : World σ φ} {r : Except Code Unit}
    (h : expired os deadline w = (r, w')) : w'.log = w.log := by
  have hrun : expired os deadline w = (if (os.now w.os).1 ≥ deadline then (.error .deadline)
      else (.ok ()), { w with os := (os.now w.os).2 }) := by
    show (if (os.now w.os).1 ≥ deadline then .fail .deadline else pure () : Io σ φ Unit)
      { w with os := (os.now w.os).2 } = _
    split <;> rfl
  rw [← (Prod.mk.inj (hrun.symm.trans h)).2]

/-- A call whose failure is `READ_FAILED` leaves one record, of what it returned. -/
theorem orReadFailed_log {f : σ → Option α × σ} {record : Option α → Event φ} {w w' : World σ φ}
    {r : Except Code α} (h : ((do orReadFailed (← .call (Os.asked f record))) : Io σ φ α) w = (r, w')) :
    w'.log = w.log ++ [record r.toOption] ∧ r.toOption = (f w.os).1 := by
  have hrun : (orReadFailed (f w.os).1 : Io σ φ α)
      { os := (f w.os).2, log := w.log ++ [record (f w.os).1] } = (r, w') := h
  rcases hf : (f w.os).1 with _ | a
  · rw [hf] at hrun
    obtain ⟨rfl, rfl⟩ := Prod.mk.inj hrun
    exact ⟨rfl, rfl⟩
  · rw [hf] at hrun
    obtain ⟨rfl, rfl⟩ := Prod.mk.inj hrun
    exact ⟨rfl, rfl⟩

theorem readChunk_log {wanted : Nat} {w w' : World σ φ} {r : Except Code Bytes}
    (h : readChunk os fd wanted w = (r, w')) :
    w'.log = w.log ++ [.read fd wanted r.toOption] ∧ (r.toOption.getD []).length ≤ wanted := by
  obtain ⟨hlog, hr⟩ := orReadFailed_log h
  refine ⟨hlog, ?_⟩
  rw [hr]
  rcases (os.read fd wanted w.os).1 with _ | chunk
  · exact Nat.zero_le _
  · exact (List.length_take_le _ _)

theorem contentOf_cons (r : Nat × Option Bytes) (reads : List (Nat × Option Bytes)) :
    contentOf (r :: reads) = r.2.getD [] ++ contentOf reads := List.flatMap_cons

/-- One read within what the limit leaves, and what comes behind it. -/
theorem asked_cons {taken wanted : Nat} {outcome : Option Bytes} {rest : List (Nat × Option Bytes)}
    (hle : taken ≤ limit) (hwanted : wanted = min CHUNK (limit + 1 - taken))
    (hlen : (outcome.getD []).length ≤ wanted)
    (hrest : Asked limit (taken + (outcome.getD []).length) rest) :
    Asked limit taken ((wanted, outcome) :: rest) := by
  have hchunk : 0 < CHUNK := by decide
  exact ⟨hle, hwanted, by omega, hlen, hrest⟩

/-- **What the loop reads**, along the derivation of its run. -/
theorem ReadLoop.reads {bytes : Bytes} {w : World σ φ} {out : Except Code Bytes × World σ φ}
    (h : ReadLoop os deadline fd limit bytes w out) (hle : bytes.length ≤ limit) :
    ∃ reads, out.2.log = w.log ++ readCalls fd reads ∧ Asked limit bytes.length reads
      ∧ bytes.length + (contentOf reads).length ≤ limit + 1
      ∧ ∀ b, out.1 = .ok b → b.length ≤ limit ∧ ∃ tail, b = bytes ++ tail ∧ ToEnd reads tail := by
  -- one read, whatever it returned, takes no more than the byte over the limit
  have hone : ∀ {bytes : Bytes} {wanted : Nat} {outcome : Option Bytes}, bytes.length ≤ limit →
      wanted = min CHUNK (limit + 1 - bytes.length) → (outcome.getD []).length ≤ wanted →
        Asked limit bytes.length [(wanted, outcome)] ∧
          bytes.length + (contentOf [(wanted, outcome)]).length ≤ limit + 1 := by
    intro bytes wanted outcome hle hwanted hlen
    refine ⟨asked_cons hle hwanted hlen trivial, ?_⟩
    rw [contentOf_cons, contentOf, List.flatMap_nil, List.append_nil]
    dsimp only
    omega
  induction h with
  | late htime =>
    refine ⟨[], ?_, trivial, ?_, fun b hb => by cases hb⟩
    · rw [expired_log htime]
      exact (List.append_nil _).symm
    · exact Nat.le_succ_of_le hle
  | failed htime hread =>
    obtain ⟨hlog, hlen⟩ := readChunk_log hread
    obtain ⟨hasked, htotal⟩ := hone hle rfl hlen
    refine ⟨_, ?_, hasked, htotal, fun b hb => by cases hb⟩
    rw [hlog, expired_log htime]
    rfl
  | ended htime hread =>
    obtain ⟨hlog, hlen⟩ := readChunk_log hread
    obtain ⟨hasked, htotal⟩ := hone hle rfl hlen
    refine ⟨_, ?_, hasked, htotal, fun b hb => ?_⟩
    · rw [hlog, expired_log htime]
      rfl
    · cases hb
      exact ⟨hle, [], (List.append_nil _).symm, [], by simp, rfl, rfl⟩
  | beyond htime hread hsome hover =>
    obtain ⟨hlog, hlen⟩ := readChunk_log hread
    obtain ⟨hasked, htotal⟩ := hone hle rfl hlen
    refine ⟨_, ?_, hasked, htotal, fun b hb => by cases hb⟩
    rw [hlog, expired_log htime]
    rfl
  | @again bytes w w₁ chunk w₂ out htime hread hsome hfits hrest ih =>
    obtain ⟨hlog, hlen⟩ := readChunk_log hread
    obtain ⟨reads, hlog', hasked, htotal, hdone⟩ := ih hfits
    rw [List.length_append] at hasked htotal
    refine ⟨(_, some chunk) :: reads, ?_, asked_cons hle rfl hlen hasked, ?_, fun b hb => ?_⟩
    · rw [hlog', hlog, expired_log htime, List.append_assoc]
      rfl
    · rw [contentOf_cons, List.length_append]
      show bytes.length + (chunk.length + (contentOf reads).length) ≤ limit + 1
      omega
    · obtain ⟨hshort, tail, rfl, chunks, hchunks, hends, rfl⟩ := hdone b hb
      refine ⟨hshort, chunk ++ chunks.flatten, List.append_assoc .., chunk :: chunks, ?_, ?_, rfl⟩
      · intro c hc
        rcases List.mem_cons.1 hc with rfl | hc
        · exact hsome
        · exact hchunks c hc
      · rw [List.map_cons, hends]
        rfl

end Reads

/-! ## §4 — `capture`. -/

/-- The calls of a capture that reads a file to its end, in their order: the revision is observed
before the file is opened for reading, after that, and behind the last read. -/
def fullCalls (fd readable : φ) (before opened after : Stat) (reads : List (Nat × Option Bytes))
    (r : Except Code (Option Bytes)) : List (Event φ) :=
  [.stat fd (some before), .reopened fd false (some readable), .stat readable (some opened)]
    ++ readCalls readable reads ++ [.stat readable (some after), .captured fd r]

/-- What a capture with these calls and this outcome went through. -/
structure Bounded (fd : φ) (limit : Nat) (calls : List (Event φ))
    (r : Except Code (Option Bytes)) : Prop where
  asked : Asked limit 0 (readsOf calls)
  total : (contentOf (readsOf calls)).length ≤ limit + 1
  /-- Content past the limit, or a difference between two observed revisions, is not `Ok`. -/
  accepted : ∀ c, r = .ok c → (contentOf (readsOf calls)).length ≤ limit ∧
    ∀ a ∈ statsOf calls, ∀ b ∈ statsOf calls, a.revision = b.revision
  /-- `Ok(Some(b))`: the whole file, as one revision of it. -/
  returned : ∀ b, r = .ok (some b) → b.length ≤ limit ∧ (∃ cs, b = Utf8.encode cs) ∧ 0 ∉ b ∧
    ∃ readable before opened after reads, calls = fullCalls fd readable before opened after reads r
      ∧ ToEnd reads b ∧ before.revision = opened.revision ∧ opened.revision = after.revision

section Capture

variable {os : Os σ φ} {deadline : Nat} {fd readable : φ} {limit : Nat}
  {before opened after : Stat} {reads : List (Nat × Option Bytes)} {calls : List (Event φ)}
  {bytes : Bytes} {r : Except Code (Option Bytes)}

theorem readsOf_fullCalls : readsOf (fullCalls fd readable before opened after reads r) = reads := by
  rw [fullCalls, readsOf_append, readsOf_append, readsOf_readCalls]
  exact List.append_nil reads

theorem statsOf_fullCalls :
    statsOf (fullCalls fd readable before opened after reads r) = [before, opened, after] := by
  rw [fullCalls, statsOf_append, statsOf_append, statsOf_readCalls]
  rfl

/-- The bytes read up to the end of a file are the content of the reads. -/
theorem ToEnd.content (h : ToEnd reads bytes) : contentOf reads = bytes := by
  obtain ⟨chunks, -, hreads, rfl⟩ := h
  have hmap : contentOf reads = (reads.map Prod.snd).flatMap fun outcome => outcome.getD [] := by
    rw [contentOf, List.flatMap_map]
  rw [hmap, hreads, List.flatMap_append, List.flatMap_map]
  simp [List.flatMap_def]

/-- A capture that fails, after these reads. -/
theorem Bounded.error {e : Code} (reads : List (Nat × Option Bytes)) (hreads : readsOf calls = reads) (hasked : Asked limit 0 reads)
    (htotal : (contentOf reads).length ≤ limit + 1) : Bounded fd limit calls (.error e) where
  asked := by
    rw [hreads]
    exact hasked
  total := by
    rw [hreads]
    exact htotal
  accepted c h := by cases h
  returned b h := by cases h

/-- A capture that ends before its first read, without content. -/
theorem Bounded.early (hreads : readsOf calls = []) (hnone : ∀ b, r ≠ .ok (some b))
    (hstats : ∀ a ∈ statsOf calls, ∀ b ∈ statsOf calls, a.revision = b.revision) :
    Bounded fd limit calls r where
  asked := by
    rw [hreads]
    trivial
  total := by
    rw [hreads]
    exact Nat.zero_le _
  accepted c _ := by
    rw [hreads]
    exact ⟨Nat.zero_le _, hstats⟩
  returned b h := absurd h (hnone b)

/-- What `capture` makes of content whose revision did not change. -/
theorem Bounded.whole (hasked : Asked limit 0 reads) (hshort : bytes.length ≤ limit)
    (hend : ToEnd reads bytes) (hopened : before.revision = opened.revision)
    (hafter : before.revision = after.revision)
    (hr : r = .ok (if isText bytes then some bytes else none)) :
    Bounded fd limit (fullCalls fd readable before opened after reads r) r where
  asked := by
    rw [readsOf_fullCalls]
    exact hasked
  total := by
    rw [readsOf_fullCalls, hend.content]
    exact Nat.le_succ_of_le hshort
  accepted c _ := by
    rw [readsOf_fullCalls, statsOf_fullCalls, hend.content]
    have hall : ∀ s ∈ [before, opened, after], s.revision = before.revision := by
      intro s hs
      rcases List.mem_cons.1 hs with rfl | hs
      · rfl
      rcases List.mem_cons.1 hs with rfl | hs
      · exact hopened.symm
      · rw [List.mem_singleton.1 hs]
        exact hafter.symm
    exact ⟨hshort, fun a ha b hb => (hall a ha).trans (hall b hb).symm⟩
  returned b hb := by
    rw [hr] at hb
    by_cases htext : isText bytes = true
    · rw [if_pos htext] at hb
      obtain rfl : bytes = b := Option.some.inj (Except.ok.inj hb)
      obtain ⟨hnul, hvalid⟩ := isText_iff.1 htext
      exact ⟨hshort, hvalid, hnul, readable, before, opened, after, reads, rfl, hend, hopened,
        hopened.symm.trans hafter⟩
    · rw [if_neg htext] at hb
      cases hb

/-- `capture` from the second deadline check on. -/
theorem captureFrom_bounded (os : Os σ φ) (deadline : Nat) (fd : φ) (limit : Nat) (before : Stat)
    (w : World σ φ) : ∃ calls,
    (captureFrom os deadline fd limit before w).2.log = w.log ++ calls ∧
      Bounded fd limit (.stat fd (some before) :: calls
          ++ [.captured fd (captureFrom os deadline fd limit before w).1])
        (captureFrom os deadline fd limit before w).1 := by
  have hfew : ∀ {e : Code} {calls : List (Event φ)}, readsOf calls = [] →
      Bounded fd limit (.stat fd (some before) :: calls ++ [.captured fd (.error e)]) (.error e) := by
    intro e calls hcalls
    refine Bounded.error [] ?_ trivial (Nat.zero_le _)
    rw [List.cons_append, ← List.singleton_append, readsOf_append, readsOf_append, hcalls]
    rfl
  rw [captureFrom]
  rcases htime : expired os deadline w with ⟨e | u, w₁⟩
  · rw [bind_of_error htime]
    exact ⟨[], by rw [expired_log htime, List.append_nil], hfew rfl⟩
  rw [bind_of_ok htime]
  rcases hopen : reopen os fd false w₁ with ⟨e | readable, w₂⟩
  · obtain ⟨hlog, -⟩ := orReadFailed_log hopen
    rw [bind_of_error hopen]
    exact ⟨_, by rw [hlog, expired_log htime], hfew rfl⟩
  obtain ⟨hlog₂, -⟩ := orReadFailed_log hopen
  rw [bind_of_ok hopen]
  rcases hstat : fstat os readable w₂ with ⟨e | opened, w₃⟩
  · obtain ⟨hlog, -⟩ := orReadFailed_log hstat
    rw [bind_of_error hstat]
    refine ⟨_, by rw [hlog, hlog₂, expired_log htime, List.append_assoc], hfew rfl⟩
  obtain ⟨hlog₃, -⟩ := orReadFailed_log hstat
  rw [bind_of_ok hstat]
  have hlog : w₃.log = w.log ++ [.reopened fd false (some readable), .stat readable (some opened)] := by
    rw [hlog₃, hlog₂, expired_log htime, List.append_assoc]
    rfl
  by_cases hchanged : opened.fileType ≠ .regularFile ∨ sameRevision before opened = false
  · rw [if_pos hchanged]
    exact ⟨_, hlog, hfew rfl⟩
  rw [if_neg hchanged]
  have hopened : before.revision = opened.revision :=
    sameRevision_iff.1 (eq_true_of_ne_false fun h => hchanged (.inr h))
  -- the loop, in the run that `readAll` makes
  have hloop : ReadLoop os deadline readable limit [] w₃
      (readAll os deadline readable limit (limit + 1) [] w₃) :=
    readLoop_readAll (limit + 1) [] w₃ (Nat.zero_le limit) (Nat.le_refl _)
  obtain ⟨reads, hlog', hasked, htotal, hdone⟩ := hloop.reads (Nat.zero_le limit)
  have htotal' : (contentOf reads).length ≤ limit + 1 := by
    rwa [List.length_nil, Nat.zero_add] at htotal
  have hmany : ∀ {e : Code} {tail : List (Event φ)}, readsOf tail = [] →
      Bounded fd limit (.stat fd (some before) :: ([.reopened fd false (some readable),
        .stat readable (some opened)] ++ readCalls readable reads ++ tail)
          ++ [.captured fd (.error e)]) (.error e) := by
    intro e tail htail
    refine Bounded.error reads ?_ hasked htotal'
    rw [List.cons_append, ← List.singleton_append]
    simp only [readsOf_append, readsOf_readCalls, htail, List.append_nil]
    exact List.append_nil reads
  rcases hread : readAll os deadline readable limit (limit + 1) [] w₃ with ⟨e | bytes, w₄⟩
  · rw [hread] at hlog'
    rw [bind_of_error hread]
    exact ⟨_, by rw [hlog', hlog, List.append_assoc, List.append_assoc, List.append_nil], hmany rfl⟩
  rw [hread] at hlog' hdone
  obtain ⟨hshort, content, rfl, hend⟩ := hdone _ rfl
  rw [bind_of_ok hread]
  rcases hlast : fstat os readable w₄ with ⟨e | after, w₅⟩
  · obtain ⟨hlog₅, -⟩ := orReadFailed_log hlast
    rw [bind_of_error hlast]
    have hlog₆ : w₅.log = w.log ++ ([.reopened fd false (some readable), .stat readable (some opened)]
        ++ readCalls readable reads ++ [.stat readable none]) := by
      rw [hlog₅, hlog', hlog]
      simp only [List.append_assoc]
      rfl
    exact ⟨_, hlog₆, hmany rfl⟩
  obtain ⟨hlog₅, -⟩ := orReadFailed_log hlast
  rw [bind_of_ok hlast]
  have hlog₆ : w₅.log = w.log ++ ([.reopened fd false (some readable), .stat readable (some opened)]
      ++ readCalls readable reads ++ [.stat readable (some after)]) := by
    rw [hlog₅, hlog', hlog]
    simp only [List.append_assoc]
    rfl
  by_cases hsame : sameRevision before after = false
  · rw [if_pos hsame]
    exact ⟨_, hlog₆, hmany rfl⟩
  · rw [if_neg hsame]
    have hafter : before.revision = after.revision :=
      sameRevision_iff.1 (eq_true_of_ne_false hsame)
    refine ⟨_, hlog₆, ?_⟩
    have hwhole : Bounded fd limit (fullCalls fd readable before opened after reads _) _ :=
      Bounded.whole hasked hshort hend hopened hafter rfl
    rw [fullCalls] at hwhole
    simpa [List.append_assoc] using hwhole

/-- The body of `capture`, with the record of its end. -/
theorem inspect_bounded (os : Os σ φ) (deadline : Nat) (fd : φ) (limit : Nat) (w : World σ φ) : ∃ calls,
    (inspect os deadline fd limit w).2.log = w.log ++ calls ∧
      Bounded fd limit (calls ++ [.captured fd (inspect os deadline fd limit w).1])
        (inspect os deadline fd limit w).1 := by
  rw [inspect]
  rcases htime : expired os deadline w with ⟨e | u, w₁⟩
  · rw [bind_of_error htime]
    refine ⟨[], by rw [expired_log htime, List.append_nil], Bounded.early rfl (fun b h => by cases h) ?_⟩
    intro a ha
    cases ha
  rw [bind_of_ok htime]
  rcases hstat : fstat os fd w₁ with ⟨e | before, w₂⟩
  · obtain ⟨hlog, -⟩ := orReadFailed_log hstat
    rw [bind_of_error hstat]
    refine ⟨_, by rw [hlog, expired_log htime], Bounded.early rfl (fun b h => by cases h) ?_⟩
    intro a ha
    cases ha
  obtain ⟨hlog, -⟩ := orReadFailed_log hstat
  rw [bind_of_ok hstat]
  by_cases hunreadable : unreadable before limit = true
  · -- one observation, and no content
    rw [if_pos hunreadable]
    refine ⟨[.stat fd (some before)], hlog.trans (by rw [expired_log htime]; rfl), Bounded.early rfl (fun b h => by cases h) ?_⟩
    intro a ha b hb
    rw [List.mem_singleton.1 ha, List.mem_singleton.1 hb]
  · rw [if_neg hunreadable]
    obtain ⟨calls, hlog', hbounded⟩ := captureFrom_bounded os deadline fd limit before w₂
    refine ⟨.stat fd (some before) :: calls, ?_, hbounded⟩
    rw [hlog', hlog, expired_log htime, List.append_assoc]
    rfl

theorem capture_calls (w : World σ φ) : ∃ calls,
    (capture os deadline fd limit w).2.log = w.log ++ calls ∧
      Bounded fd limit calls (capture os deadline fd limit w).1 := by
  obtain ⟨calls, hlog, hbounded⟩ := inspect_bounded os deadline fd limit w
  refine ⟨_, ?_, hbounded⟩
  show (inspect os deadline fd limit w).2.log ++ [_] = _
  rw [hlog, List.append_assoc]

end Capture

/-! ## §5 — the captures of a file visit. -/

/-- The end of a `capture`. -/
def Event.isCaptured : Event φ → Bool
  | .captured .. => true
  | _ => false

/-- How many captures a log records. -/
def captures (log : List (Event φ)) : Nat := (log.filter Event.isCaptured).length

theorem captures_append (log log' : List (Event φ)) :
    captures (log ++ log') = captures log + captures log' := by
  rw [captures, List.filter_append, List.length_append]
  rfl

section Visit

/-- `m` makes at most `n` captures. -/
def Captures (n : Nat) (m : Io σ φ α) : Prop := Adds (fun w : World σ φ => captures w.log) n m

variable {os : Os σ φ} {deadline : Nat}

theorem captures_asked {f : σ → α × σ} {record : α → Event φ}
    (h : ∀ a, (record a).isCaptured = false) : Captures 0 (.call (Os.asked f record) : Io σ φ α) := by
  apply Adds.call
  intro w
  show captures (w.log ++ [record (f w.os).1]) ≤ captures w.log + 0
  rw [captures_append, captures, captures, List.filter_cons_of_neg (by rw [h]; decide)]
  exact Nat.le_refl _

theorem captures_orReadFailed : ∀ a : Option α, Captures 0 (orReadFailed a : Io σ φ α)
  | some _ => Adds.pure _
  | none => Adds.fail _

theorem captures_expired : Captures 0 (expired os deadline) := by
  intro w
  rcases hr : expired os deadline w with ⟨r, w'⟩
  show captures w'.log ≤ captures w.log + 0
  rw [expired_log hr]
  exact Nat.le_refl _

theorem captures_anchor (path : Str) : Captures 0 (anchor os path) := by
  have hopen : Captures 0 (os.doOpen path : Io σ φ _) := captures_asked fun _ => rfl
  refine Adds.bind (k := 0) hopen fun r => ?_
  rcases r with errno | fd
  · exact Adds.fail _
  · exact Adds.pure _

theorem captures_readAll (fd : φ) (limit : Nat) : ∀ (rounds : Nat) (bytes : Bytes),
    Captures 0 (readAll os deadline fd limit rounds bytes)
  | 0, _ => Adds.fail _
  | rounds + 1, bytes => by
      refine Adds.bind captures_expired fun _ => Adds.bind (n := 0) (k := 0) ?_ fun chunk => ?_
      · exact Adds.bind (captures_asked fun _ => rfl) fun r => captures_orReadFailed r
      · refine Adds.ite (fun _ => Adds.pure _) fun _ => Adds.ite (fun _ => Adds.fail _) fun _ => ?_
        exact captures_readAll fd limit rounds _

theorem captures_fstat (fd : φ) : Captures 0 (fstat os fd) :=
  Adds.bind (captures_asked fun _ => rfl) fun r => captures_orReadFailed r

theorem captures_inspect (fd : φ) (limit : Nat) : Captures 0 (inspect os deadline fd limit) := by
  refine Adds.bind captures_expired fun _ => Adds.bind (n := 0) (k := 0) (captures_fstat fd) fun before => ?_
  refine Adds.ite (fun _ => Adds.pure _) fun _ => ?_
  -- from the second deadline check on
  refine Adds.bind (n := 0) (k := 0) captures_expired fun _ => Adds.bind (n := 0) (k := 0) ?_ fun readable => ?_
  · exact Adds.bind (captures_asked fun _ => rfl) fun r => captures_orReadFailed r
  refine Adds.bind (n := 0) (k := 0) (captures_fstat readable) fun opened => ?_
  refine Adds.ite (fun _ => Adds.fail _) fun _ => ?_
  refine Adds.bind (n := 0) (k := 0) (captures_readAll readable limit _ _) fun bytes => ?_
  refine Adds.bind (n := 0) (k := 0) (captures_fstat readable) fun after => ?_
  exact Adds.ite (fun _ => Adds.fail _) fun _ => Adds.pure _

theorem captures_capture (fd : φ) (limit : Nat) : Captures 1 (capture os deadline fd limit) := by
  intro w
  have hinspect := @captures_inspect σ φ os deadline fd limit w
  show captures ((inspect os deadline fd limit w).2.log ++ [_]) ≤ captures w.log + 1
  rw [captures_append]
  exact Nat.add_le_add hinspect (Nat.le_refl 1)

variable {job : Job σ φ}

theorem captures_captureTwice (fd : φ) (path : Str) : Captures 2 (captureTwice job fd path) := by
  refine Adds.bind (n := 1) (k := 1) (Adds.attempt (captures_capture fd _)) fun r => ?_
  rcases r with code | content
  · cases code
    case sourceMutated =>
      exact Adds.bind (n := 0) (k := 1) (captures_anchor path) fun fresh => captures_capture fresh _
    all_goals exact (Adds.fail _).mono (Nat.zero_le 1)
  · exact (Adds.pure _).mono (Nat.zero_le 1)

/-- `m` makes at most `n` captures, as a part of the walk. -/
def Visits (n : Nat) (m : Work σ φ α) : Prop := Adds (fun s : State σ φ => captures s.world.log) n m

theorem visits_io {n : Nat} {m : Io σ φ α} (h : Captures n m) : Visits n (Work.io m) :=
  Adds.onPart h (fun _ => rfl) fun _ _ => rfl

/-- A change of the state that leaves the log alone. -/
theorem visits_change {f : State σ φ → State σ φ} (h : ∀ s, (f s).world = s.world) :
    Visits 0 (.modify f) := by
  apply Adds.modify
  intro s
  rw [h s]
  exact Nat.le_refl _

theorem visits_findIter (path digest : Str) (bytes : Bytes) : ∀ found : List (Nat × Nat),
    Visits 0 (findIter job path digest bytes found)
  | [] => Adds.pure _
  | (start, stop) :: rest => by
      have htail := visits_findIter path digest bytes rest
      refine Adds.bind (k := 0) (visits_io captures_expired) fun _ => Adds.ite (fun _ => htail) fun _ => ?_
      refine Adds.bind (n := 0) (k := 0) ?_ fun _ => htail
      refine Adds.get_bind fun s => Adds.ite (fun _ => Adds.fail _) fun _ => ?_
      refine Adds.ite (fun _ => Adds.fail _) fun _ => ?_
      exact Adds.get_bind fun s => Adds.ite (fun _ => Adds.fail _) fun _ => visits_change fun _ => rfl

theorem visits_searchBytes (path : Str) (bytes : Bytes) : Visits 0 (searchBytes job path bytes) := by
  refine Adds.bind (k := 0) (visits_io captures_expired) fun _ => Adds.bind (n := 0) (k := 0) ?_ fun _ => ?_
  · apply Adds.modify
    intro s
    show captures (s.world.log ++ [.searched path]) ≤ captures s.world.log + 0
    rw [captures_append]
    exact Nat.le_refl _
  · cases job.request.read with
    | some read =>
      refine Adds.get_bind fun s => Adds.ite (fun _ => Adds.fail _) fun _ => ?_
      refine Adds.ite (fun _ => Adds.fail _) fun _ => Adds.ite (fun _ => Adds.fail _) fun _ => ?_
      exact visits_change fun _ => rfl
    | none => exact Adds.ite (fun _ => Adds.pure _) fun _ => visits_findIter path _ bytes _

/-- A visit of a file captures it once, and once more when it changed underneath. -/
theorem visits_searchFile (fd : φ) (path : Str) : Visits 2 (searchFile job fd path) := by
  refine Adds.ite (fun _ => (Adds.pure _).mono (Nat.zero_le 2)) fun _ => ?_
  refine Adds.bind (n := 2) (k := 0) (Adds.attempt (visits_io (captures_captureTwice fd path))) fun r => ?_
  rcases r with code | _ | bytes
  · cases code
    case deadline => exact Adds.fail _
    all_goals exact visits_change fun _ => rfl
  · exact visits_change fun _ => rfl
  · exact visits_searchBytes path bytes

/-- **A capture is bounded and of one revision**: whatever the system answers, its loop ends, it reads
at most one byte over the limit, and the content it returns is the whole file in one revision; a visit
of a file makes at most two of them. -/
theorem capture_bounded (os : Os σ φ) (deadline : Nat) (fd : φ) (limit : Nat) (w : World σ φ) :
    (∀ readable v out, ReadLoop os deadline readable limit [] v out ↔
        out = readAll os deadline readable limit (limit + 1) [] v)
      ∧ (∃ calls, (capture os deadline fd limit w).2.log = w.log ++ calls ∧
          Bounded fd limit calls (capture os deadline fd limit w).1)
      ∧ ∀ (job : Job σ φ) (path : Str) (s : State σ φ),
          captures (searchFile job fd path s).2.world.log ≤ captures s.world.log + 2 := by
  refine ⟨fun readable v out => ?_, capture_calls w, fun job path s => visits_searchFile fd path s⟩
  constructor
  · intro h
    exact (h.run (Nat.zero_le limit) (Nat.le_refl _)).symm
  · rintro rfl
    exact readLoop_readAll (limit + 1) [] v (Nat.zero_le limit) (Nat.le_refl _)

end Visit

end JevGrep.Worker
