/-
# `JevGrep.Worker.Totals` — a plan that is carried out whole.

Every limit of a search is on something that only grows: the entries counted, the hits and the bytes they
take, the ignore files with their bytes and lines. `performAll_iff`: a plan is carried out whole and ends
complete if and only if its totals are within the limits, and then the ledger is what it was and the totals.

* §1 totals; §2 limits; §3 one step; §4 the plan; §5 `search`.
-/
import Mathlib.Data.List.Nodup
import JevGrep.Worker.Follow

namespace JevGrep.Worker

open JevGrep.Lib
open Exec (bind_of_ok bind_of_error Keeps)

/-! ## §1 — totals. -/

section Tallies

variable (engine : Engine) (matcher : Bytes → List (Nat × Nat))

/-- Every match that is kept is cut at character boundaries. -/
def CutWell (bytes : Bytes) (found : List (Nat × Nat)) : Prop :=
  ∀ m ∈ found, phantom bytes m.1 = false → (isCharBoundary bytes m.1 && isCharBoundary bytes m.2) = true

/-- What a step adds. -/
def Step.tally : Step → Tally
  | .tooDeep | .broken => {}
  | .enter dir gitignore ignore =>
      { observed := [(child dir GITIGNORE, gitignore), (child dir IGNORE, ignore)] }
  | .visited => .visitedOne
  | .excluded => .excludedOne
  | .file path bytes => .ofFile engine matcher path bytes

/-- A step that a complete search may take. -/
def Step.Clean : Step → Prop
  | .tooDeep | .broken => False
  | .file _ bytes => bytes.isEmpty = false → CutWell bytes (matcher bytes)
  | _ => True

/-- The directory a step enters. -/
def Step.entered : Step → List Str
  | .enter dir _ _ => [dir]
  | _ => []

/-- What a plan adds. -/
def tallyOf (steps : List Step) : Tally := steps.foldr (fun step t => (step.tally engine matcher).add t) {}

theorem tallyOf_hits : ∀ steps : List Step,
    (tallyOf engine matcher steps).hits = steps.flatMap fun step => (step.tally engine matcher).hits
  | [] => rfl
  | step :: steps => by
      show (step.tally engine matcher).hits ++ (tallyOf engine matcher steps).hits = _
      rw [tallyOf_hits steps, List.flatMap_cons]

theorem tallyOf_observed : ∀ steps : List Step,
    (tallyOf engine matcher steps).observed = steps.flatMap fun step => (step.tally engine matcher).observed
  | [] => rfl
  | step :: steps => by
      show (step.tally engine matcher).observed ++ (tallyOf engine matcher steps).observed = _
      rw [tallyOf_observed steps, List.flatMap_cons]

end Tallies

theorem Counts.add_comm (a b : Counts) : a.add b = b.add a := by
  simp only [Counts.add, Nat.add_comm]

theorem chargeOf_append : ∀ a b : List Hit, chargeOf (a ++ b) = chargeOf a + chargeOf b
  | [], b => (Nat.zero_add _).symm
  | hit :: a, b => by
      show hit.size + chargeOf (a ++ b) = hit.size + chargeOf a + chargeOf b
      rw [chargeOf_append a b, Nat.add_assoc]

theorem total_append (f : Option Bytes → Nat) : ∀ a b : List (Str × Option Bytes),
    total f (a ++ b) = total f a + total f b
  | [], b => (Nat.zero_add _).symm
  | (_, bytes) :: a, b => by
      show f bytes + total f (a ++ b) = f bytes + total f a + total f b
      rw [total_append f a b, Nat.add_assoc]

/-- Records added in order. -/
def observeAll (observed o : List (Str × Option Bytes)) : List (Str × Option Bytes) :=
  observed.foldl (fun o x => observe x.1 x.2 o) o

namespace Ledger

/-- A ledger with a tally added. -/
def plus (t : Tally) (l : Ledger) : Ledger where
  records := {
    observations := observeAll t.observed l.records.observations
    policyBytes := l.records.policyBytes + total bytesIn t.observed
    policyLines := l.records.policyLines + total linesIn t.observed }
  result := { l.result with
    counts := l.result.counts.add t.counts
    hits := l.result.hits ++ t.hits }
  usedBytes := l.usedBytes + chargeOf t.hits

theorem plus_add (a b : Tally) (l : Ledger) : (l.plus a).plus b = l.plus (a.add b) := by
  unfold plus Tally.add observeAll
  simp only [List.foldl_append, total_append, chargeOf_append, Counts.add_assoc, List.append_assoc,
    Nat.add_assoc]

theorem plus_empty (l : Ledger) : l.plus {} = l := by
  unfold plus
  rw [List.append_nil]
  rfl

/-! ## §2 — limits. -/

/-- A ledger within all limits. -/
structure Within (r : Request) (l : Ledger) : Prop where
  visited : l.result.counts.visited ≤ r.maxEntries
  hits : l.result.hits.length ≤ r.maxMatches
  used : l.usedBytes ≤ r.responseBytes
  policyBytes : l.records.policyBytes ≤ 1048576
  policyLines : l.records.policyLines ≤ 4096
  observations : l.records.observations.length ≤ 4096

end Ledger

theorem le_length_observe {path : Str} {bytes : Option Bytes} : ∀ o : List (Str × Option Bytes),
    o.length ≤ (observe path bytes o).length
  | [] => Nat.zero_le _
  | (p, b) :: rest => by
      have ih : rest.length ≤ (observe path bytes rest).length := le_length_observe rest
      rw [observe_cons]
      split
      case isTrue => exact Nat.le_refl _
      case isFalse =>
        split
        case isTrue => exact Nat.le_succ _
        case isFalse => exact Nat.succ_le_succ ih

theorem le_length_observeAll : ∀ observed o : List (Str × Option Bytes),
    o.length ≤ (observeAll observed o).length
  | [], _ => Nat.le_refl _
  | x :: observed, o => Nat.le_trans (le_length_observe o) (le_length_observeAll observed (observe x.1 x.2 o))

namespace Ledger

/-- What only grows is within its limits before where it is behind. -/
theorem Within.of_plus {r : Request} {t : Tally} {l : Ledger} (h : Within r (l.plus t)) : Within r l where
  visited := Nat.le_trans (Nat.le_add_right _ _) h.visited
  hits := by
    have hle := h.hits
    rw [show (l.plus t).result.hits = l.result.hits ++ t.hits from rfl, List.length_append] at hle
    omega
  used := Nat.le_trans (Nat.le_add_right _ _) h.used
  policyBytes := Nat.le_trans (Nat.le_add_right _ _) h.policyBytes
  policyLines := Nat.le_trans (Nat.le_add_right _ _) h.policyLines
  observations := Nat.le_trans (le_length_observeAll _ _) h.observations

/-- The records are the two of each of these directories. -/
structure Tidy (dirs : List Str) (l : Ledger) : Prop where
  length : l.records.observations.length = 2 * dirs.length
  keys : ∀ o ∈ l.records.observations, ∃ d ∈ dirs, o.1 = child d GITIGNORE ∨ o.1 = child d IGNORE

/-! ## §3 — one step. -/

section Steps

variable {engine : Engine} {matcher : Bytes → List (Nat × Nat)} {r : Request}

theorem keep_run (hit : Hit) (l : Ledger) : keep r hit l =
    if l.result.hits.length = r.maxMatches then (.error .limitReached, l)
    else if l.usedBytes + hit.size > r.responseBytes then (.error .byteLimit, l)
    else (.ok (), l.plus { hits := [hit] }) := by
  show (if l.result.hits.length = r.maxMatches then .fail .limitReached else pay r hit : Entry) l = _
  split
  · rfl
  · show (if l.usedBytes + hit.size > r.responseBytes then .fail .byteLimit
      else .modify fun l => (l.charge hit.size).push hit : Entry) l = _
    split <;> rfl

/-- The hits of a file that are kept. -/
def keptHits (path digest : Str) (bytes : Bytes) (found : List (Nat × Nat)) : List Hit :=
  (found.filter fun m => !phantom bytes m.1).map fun m => matchHit path digest bytes m.1 m.2

theorem keepAll_cons {path digest : Str} {bytes : Bytes} {start stop : Nat} {rest : List (Nat × Nat)} :
    keepAll r path digest bytes ((start, stop) :: rest) =
      if phantom bytes start then keepAll r path digest bytes rest
      else if isCharBoundary bytes start && isCharBoundary bytes stop then
        keep r (matchHit path digest bytes start stop) >>= fun _ => keepAll r path digest bytes rest
      else .fail .matchEncoding := rfl

/-- A ledger with room for its hits. -/
def Holds (r : Request) (l : Ledger) : Prop :=
  l.result.hits.length ≤ r.maxMatches ∧ l.usedBytes ≤ r.responseBytes

theorem Holds.of_plus {t : Tally} {l : Ledger} (h : Holds r (l.plus t)) : Holds r l := by
  obtain ⟨hhits, hused⟩ := h
  rw [show (l.plus t).result.hits = l.result.hits ++ t.hits from rfl, List.length_append] at hhits
  exact ⟨by omega, Nat.le_trans (Nat.le_add_right _ _) hused⟩

theorem keep_iff {hit : Hit} {l l' : Ledger} (hl : Holds r l) :
    keep r hit l = (.ok (), l') ↔ l' = l.plus { hits := [hit] } ∧ Holds r l' := by
  have hholds : Holds r (l.plus { hits := [hit] }) ↔
      ¬l.result.hits.length = r.maxMatches ∧ ¬l.usedBytes + hit.size > r.responseBytes := by
    obtain ⟨hhits, hused⟩ := hl
    show (l.result.hits ++ [hit]).length ≤ r.maxMatches ∧ l.usedBytes + (hit.size + 0) ≤ r.responseBytes ↔ _
    rw [List.length_append, List.length_singleton]
    omega
  rw [keep_run]
  constructor
  · intro h
    split at h
    case isTrue => cases h
    case isFalse hroom =>
      split at h
      case isTrue => cases h
      case isFalse hfits =>
        obtain ⟨-, rfl⟩ := Prod.mk.inj h
        exact ⟨rfl, hholds.2 ⟨hroom, hfits⟩⟩
  · rintro ⟨rfl, h⟩
    rw [if_neg (hholds.1 h).1, if_neg (hholds.1 h).2]

/-- All matches of a file are kept if they are well cut and both budgets have room. -/
theorem keepAll_iff {path digest : Str} {bytes : Bytes} : ∀ {found : List (Nat × Nat)} {l l' : Ledger},
    Holds r l → (keepAll r path digest bytes found l = (.ok (), l') ↔
      CutWell bytes found ∧ l' = l.plus { hits := keptHits path digest bytes found } ∧ Holds r l')
  | [], l, l', hl => by
      constructor
      · intro h
        obtain ⟨-, rfl⟩ := Prod.mk.inj h
        exact ⟨fun m hm => absurd hm List.not_mem_nil, (plus_empty l).symm, hl⟩
      · rintro ⟨-, rfl, -⟩
        exact congrArg (Prod.mk _) (plus_empty l).symm
  | (start, stop) :: rest, l, l', hl => by
      rw [keepAll_cons]
      by_cases hphantom : phantom bytes start = true
      · -- a phantom is passed over on both sides
        have hkept : keptHits path digest bytes ((start, stop) :: rest) = keptHits path digest bytes rest := by
          rw [keptHits, List.filter_cons_of_neg (by simp [hphantom]), keptHits]
        have hcut : CutWell bytes ((start, stop) :: rest) ↔ CutWell bytes rest := by
          refine ⟨fun h m hm => h m (List.mem_cons_of_mem _ hm), fun h m hm hno => ?_⟩
          rcases List.mem_cons.1 hm with rfl | hm
          · rw [hphantom] at hno
            cases hno
          · exact h m hm hno
        rw [if_pos hphantom, hkept, hcut]
        exact keepAll_iff hl
      · rw [if_neg hphantom]
        have hno := Bool.eq_false_iff.2 hphantom
        by_cases hcut : (isCharBoundary bytes start && isCharBoundary bytes stop) = true
        · -- the first match is kept, then the rest
          rw [if_pos hcut]
          have hkept : keptHits path digest bytes ((start, stop) :: rest)
              = matchHit path digest bytes start stop :: keptHits path digest bytes rest := by
            rw [keptHits, List.filter_cons_of_pos (by simp [hno]), List.map_cons, keptHits]
          have hcutRest : CutWell bytes ((start, stop) :: rest) ↔ CutWell bytes rest := by
            refine ⟨fun h m hm => h m (List.mem_cons_of_mem _ hm), fun h m hm hm' => ?_⟩
            rcases List.mem_cons.1 hm with rfl | hm
            · exact hcut
            · exact h m hm hm'
          have hplus : (l.plus { hits := [matchHit path digest bytes start stop] }).plus
                { hits := keptHits path digest bytes rest }
              = l.plus { hits := keptHits path digest bytes ((start, stop) :: rest) } := by
            rw [plus_add, hkept]
            rfl
          rw [hcutRest, Exec.bind_ok_iff]
          constructor
          · rintro ⟨⟨⟩, l₁, hkeep, hrest⟩
            obtain ⟨rfl, hholds⟩ := (keep_iff hl).1 hkeep
            obtain ⟨hcuts, rfl, hholds'⟩ := (keepAll_iff hholds).1 hrest
            exact ⟨hcuts, hplus, hholds'⟩
          · rintro ⟨hcuts, rfl, hholds⟩
            rw [← hplus] at hholds ⊢
            exact ⟨(), _, (keep_iff hl).2 ⟨rfl, hholds.of_plus⟩,
              (keepAll_iff hholds.of_plus).2 ⟨hcuts, rfl, hholds⟩⟩
        · -- a match that splits a character ends the pass
          rw [if_neg hcut]
          constructor
          · intro h
            cases h
          · rintro ⟨h, -⟩
            exact absurd (h (start, stop) List.mem_cons_self hno) hcut

theorem fileHits_eq (path : Str) {bytes : Bytes} (h : bytes.isEmpty = false) :
    fileHits engine matcher path bytes
      = keptHits path (hex (engine.sha256 bytes)) bytes (matcher bytes) := by
  rw [fileHits, if_neg (by rw [h]; exact Bool.false_ne_true)]
  rfl

theorem search_iff (hread : r.read = none) {path : Str} {bytes : Bytes} {l l' : Ledger} (hl : Holds r l) :
    search engine matcher r path bytes l = (.ok (), l') ↔
      (Step.file path bytes).Clean matcher ∧ l' = l.plus (.ofFile engine matcher path bytes) ∧ Holds r l' := by
  let counted : Tally := { counts := { searched := 1, bytesRead := bytes.length } }
  have hcounted : { l with result := l.result.searched bytes } = l.plus counted := by
    unfold plus
    rw [List.append_nil]
    rfl
  have hrun : search engine matcher r path bytes l = (if bytes.isEmpty then pure ()
      else keepAll r path (hex (engine.sha256 bytes)) bytes (matcher bytes) : Entry) (l.plus counted) := by
    rw [← hcounted]
    show ask engine matcher r path bytes r.read _ = _
    rw [hread]
    rfl
  have hl' : Holds r (l.plus counted) := by
    rw [← hcounted]
    exact hl
  have hplus : (l.plus counted).plus { hits := fileHits engine matcher path bytes }
      = l.plus (.ofFile engine matcher path bytes) := by
    rw [plus_add]
    rfl
  rw [hrun, ← hplus]
  cases hempty : bytes.isEmpty with
  | true =>
    have hnone : fileHits engine matcher path bytes = [] := by rw [fileHits, if_pos hempty]
    rw [if_pos rfl, hnone, plus_empty]
    constructor
    · intro h
      obtain ⟨-, rfl⟩ := Prod.mk.inj h
      exact ⟨fun h => absurd (hempty.symm.trans h) (by simp), rfl, hl'⟩
    · rintro ⟨-, rfl, -⟩
      rfl
  | false =>
    rw [if_neg Bool.false_ne_true, fileHits_eq path hempty, keepAll_iff hl']
    refine and_congr_left fun _ => ?_
    exact ⟨fun h _ => h, fun h => h hempty⟩

end Steps

end Ledger

namespace Records

/-- Records within their limits. -/
def Within (records : Records) : Prop := records.policyBytes ≤ 1048576 ∧ records.policyLines ≤ 4096

theorem Within.of_add {path : Str} {bytes : Option Bytes} {records : Records}
    (h : Within (records.add path bytes)) : Within records :=
  ⟨Nat.le_trans (Nat.le_add_right _ _) h.1, Nat.le_trans (Nat.le_add_right _ _) h.2⟩

/-- An ignore file is recorded if it takes the policies over no limit. -/
theorem load_iff {path : Str} {bytes : Option Bytes} {records records' : Records} (h : Within records) :
    load path bytes records = (.ok (), records') ↔ records' = records.add path bytes ∧ Within records' := by
  cases bytes with
  | none =>
    constructor
    · intro hrun
      obtain ⟨-, rfl⟩ := Prod.mk.inj hrun
      exact ⟨rfl, h⟩
    · rintro ⟨rfl, -⟩
      rfl
  | some content =>
    show (if records.policyBytes + content.length > 1048576 then do
        .modify fun s => { s with policyBytes := s.policyBytes + content.length }
        .fail .entryLimit
      else if records.policyLines + linesIn (some content) > 4096 then do
        .modify fun s => { s with policyBytes := s.policyBytes + content.length, policyLines := 4097 }
        .fail .entryLimit
      else .modify (add path (some content)) : Exec Records Stop Unit) records = _ ↔ _
    constructor
    · intro hrun
      split at hrun
      case isTrue => cases hrun
      case isFalse hbytes =>
        split at hrun
        case isTrue => cases hrun
        case isFalse hlines =>
          obtain ⟨-, rfl⟩ := Prod.mk.inj hrun
          exact ⟨rfl, Nat.not_lt.1 hbytes, Nat.not_lt.1 hlines⟩
    · rintro ⟨rfl, hbytes, hlines⟩
      have hfits : ¬records.policyBytes + content.length > 1048576 := Nat.not_lt.2 hbytes
      have hcounted : ¬records.policyLines + linesIn (some content) > 4096 := Nat.not_lt.2 hlines
      rw [if_neg hfits, if_neg hcounted]
      rfl

theorem enter_iff {dir : Str} {gitignore ignore : Option Bytes} {records records' : Records}
    (h : Within records) :
    enter dir gitignore ignore records = (.ok (), records') ↔ records.observations.length < 4096 ∧
      records' = (records.add (child dir GITIGNORE) gitignore).add (child dir IGNORE) ignore ∧
      Within records' := by
  show (if records.observations.length ≥ 4096 then .fail .entryLimit
    else load (child dir GITIGNORE) gitignore >>= fun _ => load (child dir IGNORE) ignore :
      Exec Records Stop Unit) records = _ ↔ _
  by_cases hfull : records.observations.length ≥ 4096
  · rw [if_pos hfull]
    constructor
    · intro hrun
      cases hrun
    · rintro ⟨hroom, -⟩
      omega
  · rw [if_neg hfull, Exec.bind_ok_iff]
    constructor
    · rintro ⟨⟨⟩, records₁, hfirst, hsecond⟩
      obtain ⟨rfl, hwithin⟩ := (load_iff h).1 hfirst
      obtain ⟨rfl, hwithin'⟩ := (load_iff hwithin).1 hsecond
      exact ⟨Nat.not_le.1 hfull, rfl, hwithin'⟩
    · rintro ⟨-, rfl, hwithin⟩
      exact ⟨(), _, (load_iff h).2 ⟨rfl, hwithin.of_add⟩, (load_iff hwithin.of_add).2 ⟨rfl, hwithin⟩⟩

end Records

namespace Ledger

section Perform

variable {engine : Engine} {matcher : Bytes → List (Nat × Nat)} {r : Request}

theorem Within.holds {l : Ledger} (h : Within r l) : Holds r l := ⟨h.hits, h.used⟩

theorem Within.recorded {l : Ledger} (h : Within r l) : l.records.Within := ⟨h.policyBytes, h.policyLines⟩

variable (engine matcher) in
/-- A directory that is new adds two records. -/
theorem Tidy.enter {dirs : List Str} {dir : Str} {gitignore ignore : Option Bytes} {l : Ledger}
    (h : Tidy dirs l) (hnew : dir ∉ dirs) :
    Tidy (dirs ++ [dir]) (l.plus ((Step.enter dir gitignore ignore).tally engine matcher)) := by
  have hunseen : ∀ name, '/' ∉ name → ∀ o ∈ l.records.observations, o.1 ≠ child dir name := by
    intro name hname o ho heq
    obtain ⟨d, hd, hkey⟩ := h.keys o ho
    have hne : d ≠ dir := fun heq => hnew (heq ▸ hd)
    rcases hkey with hkey | hkey
    · exact child_ne hne slash_notMem_GITIGNORE hname (hkey.symm.trans heq)
    · exact child_ne hne slash_notMem_IGNORE hname (hkey.symm.trans heq)
  have hfirst : ∀ o ∈ observe (child dir GITIGNORE) gitignore l.records.observations,
      o.1 ≠ child dir IGNORE := by
    intro o ho
    rcases mem_of_mem_observe ho with rfl | ho
    · exact GITIGNORE_ne_IGNORE dir
    · exact hunseen _ slash_notMem_IGNORE o ho
  constructor
  · show (observe _ ignore (observe _ gitignore l.records.observations)).length = _
    rw [length_observe hfirst, length_observe (hunseen _ slash_notMem_GITIGNORE), h.length, List.length_append,
      List.length_singleton]
    omega
  · intro o ho
    have ho : o ∈ observe (child dir IGNORE) ignore
        (observe (child dir GITIGNORE) gitignore l.records.observations) := ho
    have hmem : dir ∈ dirs ++ [dir] := List.mem_append_right _ List.mem_cons_self
    rcases mem_of_mem_observe ho with rfl | ho
    · exact ⟨dir, hmem, .inr rfl⟩
    rcases mem_of_mem_observe ho with rfl | ho
    · exact ⟨dir, hmem, .inl rfl⟩
    · obtain ⟨d, hd, hkey⟩ := h.keys o ho
      exact ⟨d, List.mem_append_left _ hd, hkey⟩

variable (engine matcher) in
theorem Tidy.perform {dirs : List Str} {step : Step} {l : Ledger} (h : Tidy dirs l)
    (hnew : ∀ dir ∈ step.entered, dir ∉ dirs) :
    Tidy (dirs ++ step.entered) (l.plus (step.tally engine matcher)) := by
  cases step with
  | enter dir gitignore ignore => exact h.enter engine matcher (hnew dir List.mem_cons_self)
  | _ =>
    show Tidy (dirs ++ []) _
    rw [List.append_nil]
    exact ⟨h.length, h.keys⟩

/-- Entering succeeds if the two records are within the limits. -/
theorem enter_iff {dirs : List Str} {dir : Str} {gitignore ignore : Option Bytes} {l l' : Ledger}
    (hl : Within r l) (htidy : Tidy dirs l) (hnew : dir ∉ dirs) :
    perform engine matcher r (.enter dir gitignore ignore) l = (.ok (), l') ↔
      l' = l.plus ((Step.enter dir gitignore ignore).tally engine matcher) ∧ Within r l' := by
  have hplus : l.plus ((Step.enter dir gitignore ignore).tally engine matcher)
      = { l with records :=
          (l.records.add (child dir GITIGNORE) gitignore).add (child dir IGNORE) ignore } := by
    show Ledger.mk _ _ _ = _
    rw [show (Step.tally engine matcher (.enter dir gitignore ignore)).hits = [] from rfl, List.append_nil]
    simp only [Step.tally, Records.add, observeAll, total, List.foldl_cons, List.foldl_nil, Nat.add_zero,
      Nat.add_assoc]
    rfl
  have hentered : Tidy (dirs ++ [dir]) (l.plus ((Step.enter dir gitignore ignore).tally engine matcher)) :=
    htidy.enter engine matcher hnew
  have hafter := hentered.length
  have hlength := htidy.length
  rw [List.length_append, List.length_singleton] at hafter
  show ((Records.enter dir gitignore ignore l.records).1,
    { l with records := (Records.enter dir gitignore ignore l.records).2 }) = _ ↔ _
  constructor
  · intro h
    obtain ⟨hok, rfl⟩ := Prod.mk.inj h
    have hrun : Records.enter dir gitignore ignore l.records
        = (.ok (), (Records.enter dir gitignore ignore l.records).2) := Prod.ext hok rfl
    obtain ⟨hroom, hrecords, hbytes, hlines⟩ := (Records.enter_iff hl.recorded).1 hrun
    refine ⟨hplus ▸ hrecords ▸ rfl, hl.visited, hl.hits, hl.used, hbytes, hlines, ?_⟩
    rw [hplus] at hafter
    show (Records.enter dir gitignore ignore l.records).2.observations.length ≤ 4096
    rw [hrecords]
    exact Nat.le_trans (Nat.le_of_eq hafter) (by omega)
  · rintro ⟨rfl, hwithin⟩
    have hroom : l.records.observations.length < 4096 := by
      have hle := hwithin.observations
      omega
    rw [hplus] at hwithin ⊢
    have hrun := (Records.enter_iff hl.recorded).2 ⟨hroom, rfl, hwithin.recorded⟩
    rw [hrun]

/-- A step succeeds and leaves the result complete if what it adds is within the limits. -/
theorem perform_iff (hread : r.read = none) {dirs : List Str} {step : Step} {l l' : Ledger} (hl : Within r l)
    (htidy : Tidy dirs l) (hcomplete : l.result.coverage = .complete)
    (hnew : ∀ dir ∈ step.entered, dir ∉ dirs) :
    (perform engine matcher r step l = (.ok (), l') ∧ l'.result.coverage = .complete) ↔
      step.Clean matcher ∧ l' = l.plus (step.tally engine matcher) ∧ Within r l' := by
  have hkept : l' = l.plus (step.tally engine matcher) → l'.result.coverage = .complete := by
    rintro rfl
    exact hcomplete
  cases step with
  | tooDeep =>
    -- the step runs, but leaves the coverage incomplete
    constructor
    · rintro ⟨h, hafter⟩
      obtain ⟨-, rfl⟩ := Prod.mk.inj h
      cases hafter
    · rintro ⟨⟨⟩, -⟩
  | broken =>
    constructor
    · rintro ⟨h, -⟩
      cases h
    · rintro ⟨⟨⟩, -⟩
  | enter dir gitignore ignore =>
    have hiff : perform engine matcher r (.enter dir gitignore ignore) l = (.ok (), l') ↔ _ :=
      enter_iff hl htidy (hnew dir List.mem_cons_self)
    constructor
    · rintro ⟨h, -⟩
      exact ⟨trivial, hiff.1 h⟩
    · rintro ⟨-, h⟩
      exact ⟨hiff.2 h, hkept h.1⟩
  | visited =>
    -- the limit is tested before the entry is counted
    have hplus : { l with result := l.result.visited } = l.plus .visitedOne := by
      unfold plus
      rw [show Tally.visitedOne.hits = [] from rfl, List.append_nil]
      rfl
    show ((if l.result.counts.visited = r.maxEntries then .fail .entryLimit
      else .modify fun l => { l with result := l.result.visited } : Entry) l = _ ∧ _) ↔
      True ∧ l' = l.plus .visitedOne ∧ _
    rw [← hplus]
    constructor
    · rintro ⟨h, -⟩
      split at h
      case isTrue => cases h
      case isFalse hroom =>
        obtain ⟨-, rfl⟩ := Prod.mk.inj h
        have hle : l.result.counts.visited + 1 ≤ r.maxEntries :=
          Nat.lt_of_le_of_ne hl.visited hroom
        exact ⟨trivial, rfl, hle, hl.hits, hl.used, hl.policyBytes, hl.policyLines, hl.observations⟩
    · rintro ⟨-, rfl, hwithin⟩
      have hle : l.result.counts.visited + 1 ≤ r.maxEntries := hwithin.visited
      rw [if_neg (Nat.ne_of_lt hle)]
      exact ⟨rfl, hcomplete⟩
  | excluded =>
    -- nothing limits what is set aside
    have hplus : { l with result := l.result.excluded } = l.plus .excludedOne := by
      unfold plus
      rw [show Tally.excludedOne.hits = [] from rfl, List.append_nil]
      rfl
    show (((.ok (), { l with result := l.result.excluded }) : Except Stop Unit × Ledger) = _ ∧ _) ↔
      True ∧ l' = l.plus .excludedOne ∧ _
    rw [← hplus]
    constructor
    · rintro ⟨h, -⟩
      obtain ⟨-, rfl⟩ := Prod.mk.inj h
      exact ⟨trivial, rfl, hl.visited, hl.hits, hl.used, hl.policyBytes, hl.policyLines, hl.observations⟩
    · rintro ⟨-, rfl, -⟩
      exact ⟨rfl, hcomplete⟩
  | file path bytes =>
    show (search engine matcher r path bytes l = _ ∧ _) ↔ _
    rw [search_iff hread hl.holds]
    constructor
    · rintro ⟨⟨hclean, hafter, hholds⟩, -⟩
      refine ⟨hclean, hafter, ?_⟩
      have hafter : l' = l.plus (.ofFile engine matcher path bytes) := hafter
      rw [hafter] at hholds ⊢
      exact ⟨hl.visited, hholds.1, hholds.2, hl.policyBytes, hl.policyLines, hl.observations⟩
    · rintro ⟨hclean, hafter, hwithin⟩
      exact ⟨⟨hclean, hafter, hwithin.holds⟩, hkept hafter⟩

/-- What an issue of the depth limit keeps of coverage and reasons, every step keeps. -/
theorem keeps_issued {K : Coverage → List Code → Prop}
    (hissue : ∀ result : Success, K result.coverage result.reasons →
      K (result.issue .depthLimit).coverage (result.issue .depthLimit).reasons) : ∀ step : Step,
    Keeps (fun l => K l.result.coverage l.result.reasons) (perform engine matcher r step)
  | .tooDeep => Keeps.modify fun l h => hissue l.result h
  | .broken => Keeps.fail _
  | .excluded => Keeps.modify fun _ h => h
  | .visited => Keeps.get_bind fun _ => Exec.Triple.ite (fun _ => Keeps.fail _) fun _ =>
      Keeps.modify fun _ h => h
  | .enter dir gitignore ignore => by
      have hlift : Keeps (fun l => K l.result.coverage l.result.reasons) (.onPart Ledger.records
          (fun records l => { l with records }) (Records.enter dir gitignore ignore) : Entry) :=
        Exec.Triple.onPart (Exec.Triple.anyhow _) (fun _ _ => trivial) (fun _ _ _ h _ => h) fun _ _ _ h _ => h
      exact hlift
  | .file path bytes => keeps_search (fun _ => K) path bytes

/-- Nothing completes what is incomplete. -/
theorem keeps_incomplete (step : Step) :
    Keeps (fun l => l.result.coverage = .incomplete) (perform engine matcher r step) :=
  keeps_issued (K := fun coverage _ => coverage = .incomplete) (fun _ _ => rfl) step

/-- Steps all succeed and leave the result complete if and only if what they add is within the limits. -/
theorem performAll_iff (hread : r.read = none) : ∀ {steps : List Step} {dirs : List Str} {l l' : Ledger},
    Within r l → Tidy dirs l → l.result.coverage = .complete → (dirs ++ steps.flatMap Step.entered).Nodup →
    ((performAll engine matcher r steps l = (.ok (), l') ∧ l'.result.coverage = .complete) ↔
      (∀ step ∈ steps, step.Clean matcher) ∧ l' = l.plus (tallyOf engine matcher steps) ∧ Within r l')
  | [], dirs, l, l', hl, _, hcomplete, _ => by
      show (((.ok (), l) : Except Stop Unit × Ledger) = (.ok (), l') ∧ _) ↔ _ ∧ l' = l.plus {} ∧ _
      rw [plus_empty]
      constructor
      · rintro ⟨h, -⟩
        obtain ⟨-, rfl⟩ := Prod.mk.inj h
        exact ⟨fun step h => absurd h List.not_mem_nil, rfl, hl⟩
      · rintro ⟨-, rfl, -⟩
        exact ⟨rfl, hcomplete⟩
  | step :: steps, dirs, l, l', hl, htidy, hcomplete, hnodup => by
      rw [List.flatMap_cons, ← List.append_assoc] at hnodup
      have hnew : ∀ dir ∈ step.entered, dir ∉ dirs := fun dir hdir hmem =>
        (List.nodup_append.1 (List.nodup_append.1 hnodup).1).2.2 dir hmem dir hdir rfl
      have hone : ∀ l₁, (perform engine matcher r step l = (.ok (), l₁) ∧ l₁.result.coverage = .complete) ↔ _ :=
        fun _ => perform_iff hread hl htidy hcomplete hnew
      have hplus : (l.plus (step.tally engine matcher)).plus (tallyOf engine matcher steps)
          = l.plus (tallyOf engine matcher (step :: steps)) := plus_add _ _ l
      have hrest : Within r (l.plus (step.tally engine matcher)) →
          ((performAll engine matcher r steps (l.plus (step.tally engine matcher)) = (.ok (), l') ∧
            l'.result.coverage = .complete) ↔ _) :=
        fun hwithin => performAll_iff hread hwithin (htidy.perform engine matcher hnew) hcomplete hnodup
      rw [performAll_cons, Exec.bind_ok_iff]
      constructor
      · rintro ⟨⟨⟨⟩, l₁, hfirst, hsecond⟩, hend⟩
        have hmid : l₁.result.coverage = .complete := by
          cases hcoverage : l₁.result.coverage with
          | complete => rfl
          | incomplete =>
            have hkeep := (keeps_performAll fun step _ => keeps_incomplete step).ok hcoverage hsecond
            exact absurd (hend.symm.trans hkeep) (by decide)
        obtain ⟨hclean, rfl, hwithin⟩ := (hone l₁).1 ⟨hfirst, hmid⟩
        obtain ⟨hcleans, hafter, hend⟩ := (hrest hwithin).1 ⟨hsecond, hend⟩
        exact ⟨List.forall_mem_cons.2 ⟨hclean, hcleans⟩, hafter.trans hplus, hend⟩
      · rintro ⟨hcleans, hafter, hend⟩
        obtain ⟨hclean, hcleans⟩ := List.forall_mem_cons.1 hcleans
        have hafter := hafter.trans hplus.symm
        have hwithin : Within r (l.plus (step.tally engine matcher)) := by
          rw [hafter] at hend
          exact hend.of_plus
        obtain ⟨hfirst, -⟩ := (hone _).2 ⟨hclean, rfl, hwithin⟩
        obtain ⟨hsecond, hend⟩ := (hrest hwithin).2 ⟨hcleans, hafter, hend⟩
        exact ⟨⟨(), _, hfirst, hsecond⟩, hend⟩

end Perform

end Ledger

/-! ## §4 — the plan. -/

theorem ne_nil_of_validPath {path : Str} (h : validPath path = true) : path ≠ [] := by
  rintro rfl
  cases h

/-- What lies in two entries of a directory lies in one. -/
theorem name_eq_of_mem_above {dir a b d : Str} (ha : child dir a ∈ above d) (hb : child dir b ∈ above d)
    (hslash : '/' ∉ a) (hslash' : '/' ∉ b) (hne : child dir a ≠ []) (hne' : child dir b ≠ []) : a = b := by
  have hlength : ∀ {a b : Str}, '/' ∉ a → '/' ∉ b → child dir a ≠ [] → child dir b ≠ [] →
      child dir a ∈ above (child dir b) → a = b := by
    intro a b hslash hslash' hne hne' hmem
    rw [above_of_ne hne', containing_child hslash'] at hmem
    rcases List.mem_cons.1 hmem with heq | hmem
    · exact child_injective heq
    · -- an entry is longer than its directory
      have hlt := length_parentOf hne
      rw [parentOf_child hslash] at hlt
      have hle := length_le_of_mem_above hmem
      omega
  rcases mem_above_or ha hb with h | h
  · exact hlength hslash hslash' hne hne' h
  · exact (hlength hslash' hslash hne' hne h).symm

section Entered

variable {engine : Engine} {filter : Filter} {r : Request} {tree : Node}

/-- The directory a step enters, or the file it searches. -/
def Step.place : Step → List Str
  | .enter dir _ _ => [dir]
  | .file path _ => [path]
  | _ => []

/-- A walk has places below its directory, no place twice. -/
theorem plan_places : ∀ (levels : Nat) {node : Node} (dir : Str), node.Distinct →
    ((plan engine filter r tree levels node dir).flatMap Step.place).Nodup ∧
    ∀ d ∈ (plan engine filter r tree levels node dir).flatMap Step.place, dir ∈ above d
  | 0, _, _, _ => ⟨List.nodup_nil, fun d h => absurd h List.not_mem_nil⟩
  | levels + 1, .file _, _, _ => ⟨List.nodup_nil, fun d h => absurd h List.not_mem_nil⟩
  | levels + 1, .other, _, _ => ⟨List.nodup_nil, fun d h => absurd h List.not_mem_nil⟩
  | levels + 1, .dir entries, dir, hdistinct => by
      let places : DirName × Node → List Str := fun entry =>
        (entrySteps engine filter r tree (plan engine filter r tree levels) dir entry).flatMap Step.place
      have hown : (enterSteps engine filter tree dir).flatMap Step.place ⊆ [dir] ∧
          ((enterSteps engine filter tree dir).flatMap Step.place).Nodup := by
        unfold enterSteps
        split
        · split
          · exact ⟨List.Subset.refl _, List.pairwise_singleton _ _⟩
          · exact ⟨List.nil_subset _, List.nodup_nil⟩
        · exact ⟨List.nil_subset _, List.nodup_nil⟩
      cases hdistinct with
      | dir _ names dots below =>
        -- the places of an entry lie in that entry
        have hentry : ∀ entry ∈ entries, (places entry).Nodup ∧ ∀ d ∈ places entry,
            ∃ name, Utf8.decode entry.1.bytes = some name ∧ child dir name ≠ [] ∧ child dir name ∈ above d := by
          intro entry hmem
          have hplaces : places entry = (nameSteps engine filter r tree (plan engine filter r tree levels)
              dir entry).flatMap Step.place := rfl
          rcases nameSteps_cases entry with hnone | ⟨name, bytes, hname, hvalid, -, hone⟩ | ⟨name, hname, hvalid, hwalk⟩
          · have hnil : places entry = [] := by
              rcases List.mem_pair.1 hnone with hnone | hnone <;> rw [hplaces, hnone] <;> rfl
            rw [hnil]
            exact ⟨List.nodup_nil, fun d h => absurd h List.not_mem_nil⟩
          · have hsingle : places entry = [child dir name] := by
              rw [hplaces, hone]
              rfl
            rw [hsingle]
            refine ⟨List.pairwise_singleton _ _, fun d hd => ⟨name, hname, ne_nil_of_validPath hvalid, ?_⟩⟩
            rw [List.mem_singleton.1 hd]
            exact mem_above_self _
          · obtain ⟨hnodup, hin⟩ := plan_places levels (child dir name) (below entry hmem)
            rw [hplaces, hwalk]
            exact ⟨hnodup, fun d hd => ⟨name, hname, ne_nil_of_validPath hvalid, hin d hd⟩⟩
        have hbelow : ∀ entry ∈ entries, ∀ d ∈ places entry, dir ∈ above d ∧ d ≠ dir := by
          intro entry hmem d hd
          obtain ⟨name, hname, hne, habove⟩ := (hentry entry hmem).2 d hd
          have hlt := length_parentOf hne
          have hle := length_le_of_mem_above habove
          rw [parentOf_child (slash_notMem_name hname)] at hlt
          refine ⟨mem_above_trans ?_ habove, fun heq => absurd (heq ▸ hle) (Nat.not_le.2 hlt)⟩
          rw [above_of_ne hne, containing_child (slash_notMem_name hname)]
          exact List.mem_cons_of_mem _ (mem_above_self dir)
        have hrest : (entries.flatMap places).Nodup := by
          refine List.nodup_flatMap.2 ⟨fun entry hmem => (hentry entry hmem).1, ?_⟩
          refine (List.pairwise_map.1 names).imp_of_mem fun ha hb hne => ?_
          intro d hda hdb
          obtain ⟨a, hdecode, hnil, habove⟩ := (hentry _ ha).2 d hda
          obtain ⟨b, hdecode', hnil', habove'⟩ := (hentry _ hb).2 d hdb
          have hname := name_eq_of_mem_above habove habove' (slash_notMem_name hdecode)
            (slash_notMem_name hdecode') hnil hnil'
          apply hne
          rw [Utf8.decode_eq_some.1 hdecode, Utf8.decode_eq_some.1 hdecode', hname]
        rw [plan_dir, List.flatMap_append, List.flatMap_assoc]
        refine ⟨List.nodup_append.2 ⟨hown.2, hrest, ?_⟩, fun d hd => ?_⟩
        · rintro d hd _ hd' rfl
          obtain ⟨entry, hmem, hd'⟩ := List.mem_flatMap.1 hd'
          exact (hbelow entry hmem d hd').2 (List.mem_singleton.1 (hown.1 hd))
        · rcases List.mem_append.1 hd with hd | hd
          · rw [List.mem_singleton.1 (hown.1 hd)]
            exact mem_above_self dir
          · obtain ⟨entry, hmem, hd⟩ := List.mem_flatMap.1 hd
            exact (hbelow entry hmem d hd).1

theorem entered_sublist : ∀ steps : List Step, (steps.flatMap Step.entered).Sublist (steps.flatMap Step.place)
  | [] => List.Sublist.refl _
  | step :: steps => by
      rw [List.flatMap_cons, List.flatMap_cons]
      refine List.Sublist.append ?_ (entered_sublist steps)
      cases step with
      | enter dir gitignore ignore => exact List.Sublist.refl _
      | _ => exact List.nil_sublist _

/-- The steps a search takes. -/
def scheduled (engine : Engine) (filter : Filter) (r : Request) (tree : Node) : List Step :=
  if r.validateScopeOnly then [] else plan engine filter r tree (r.maxDepth + 1) tree []

theorem scheduled_entered (h : tree.Distinct) :
    ((scheduled engine filter r tree).flatMap Step.entered).Nodup := by
  unfold scheduled
  split
  · exact List.nodup_nil
  · exact (plan_places _ [] h).1.sublist (entered_sublist _)

end Entered

/-! ## §5 — `search`. -/

section Complete

variable (engine : Engine) (matcher : Bytes → List (Nat × Nat)) (filter : Filter) (r : Request) (tree : Node)

/-- The ledger with all that the tree has for the request. -/
def wholeLedger : Ledger := (Ledger.start r).plus (tallyOf engine matcher (scheduled engine filter r tree))

/-- The answer with all that the tree has for the request. -/
def wholeAnswer : Success :=
  { (wholeLedger engine matcher filter r tree).result with
    policySnapshotHash := snapshotHash engine (wholeLedger engine matcher filter r tree).records.observations
    elapsedMs := .nat 0 }

/-- Nothing of the tree stops a search, and all of it is within the limits of the request. -/
structure Whole : Prop where
  clean : ∀ step ∈ scheduled engine filter r tree, step.Clean matcher
  within : (wholeLedger engine matcher filter r tree).Within r

/-- The request is one that can be carried out on the tree whole, with this answer. -/
structure AnsweredWhole (success : Success) : Prop where
  valid : validate r = .ok ()
  answered : ∃ matcher scope, engine.matcher r.pattern r.kind r.caseSensitive = some matcher ∧
    Scope.new engine r.scope = .ok scope ∧ Whole engine matcher scope.toFilter r tree ∧
    success = wholeAnswer engine matcher scope.toFilter r tree

variable {engine matcher filter r tree}

theorem within_start (hvalid : validate r = .ok ()) : (Ledger.start r).Within r where
  visited := Nat.zero_le _
  hits := Nat.zero_le _
  used := (validate_ok hvalid).responseBytes.1
  policyBytes := Nat.zero_le _
  policyLines := Nat.zero_le _
  observations := Nat.zero_le _

theorem tidy_start : (Ledger.start r).Tidy [] := ⟨rfl, fun _ h => absurd h List.not_mem_nil⟩

/-- A stop that is passed over leaves an issue. -/
theorem sorted_ok {stop : Stop} {l l' : Ledger} (h : Ledger.sorted r stop l = (.ok (), l')) :
    ∃ code, l' = { l with result := l.result.issue code } := by
  unfold Ledger.sorted at h
  cases hcode : stop.code with
  | none =>
    rw [hcode] at h
    cases h
  | some code =>
    rw [hcode] at h
    change (if r.read.isSome || code == .matchEncoding then .fail stop
      else .modify fun l => { l with result := l.result.issue code } : Entry) l = (.ok (), l') at h
    split at h
    · cases h
    · obtain ⟨-, rfl⟩ := Prod.mk.inj h
      exact ⟨code, rfl⟩

/-- A plan is traversed to a complete result if it is carried out whole. -/
theorem traverse_complete_iff (hvalid : validate r = .ok ()) (hread : r.read = none) (hdistinct : tree.Distinct)
    {l : Ledger} :
    (Ledger.traverse engine matcher r (plan engine filter r tree (r.maxDepth + 1) tree []) (Ledger.start r)
      = (.ok (), l) ∧ l.result.coverage = .complete) ↔
    Whole engine matcher filter r tree ∧ l = wholeLedger engine matcher filter r tree := by
  have hrun : Ledger.traverse engine matcher r (plan engine filter r tree (r.maxDepth + 1) tree [])
      = (.attempt (Ledger.performAll engine matcher r (scheduled engine filter r tree)) >>= Ledger.settle r) := by
    unfold Ledger.traverse scheduled
    cases r.validateScopeOnly <;> rfl
  have hall : (Ledger.performAll engine matcher r (scheduled engine filter r tree) (Ledger.start r)
      = (.ok (), l) ∧ l.result.coverage = .complete) ↔ _ :=
    Ledger.performAll_iff hread (within_start hvalid) tidy_start rfl (scheduled_entered hdistinct)
  rw [hrun]
  constructor
  · rintro ⟨h, hcomplete⟩
    obtain ⟨result, l₁, hattempt, hsorted⟩ := Exec.bind_ok h
    rcases hsteps : Ledger.performAll engine matcher r (scheduled engine filter r tree) (Ledger.start r)
      with ⟨stop | ⟨⟩, l₂⟩
    · rw [Exec.attempt_run, hsteps] at hattempt
      obtain ⟨hresult, rfl⟩ := Prod.mk.inj hattempt
      obtain rfl := Except.ok.inj hresult
      obtain ⟨code, rfl⟩ := sorted_ok hsorted
      cases hcomplete
    · rw [Exec.attempt_run, hsteps] at hattempt
      obtain ⟨hresult, rfl⟩ := Prod.mk.inj hattempt
      obtain rfl := Except.ok.inj hresult
      obtain ⟨-, rfl⟩ := Prod.mk.inj hsorted
      obtain ⟨hclean, hafter, hwithin⟩ := hall.1 ⟨hsteps, hcomplete⟩
      have hafter : l₂ = wholeLedger engine matcher filter r tree := hafter
      exact ⟨⟨hclean, hafter ▸ hwithin⟩, hafter⟩
  · rintro ⟨hwhole, rfl⟩
    obtain ⟨hsteps, hcomplete⟩ := hall.2 ⟨hwhole.clean, rfl, hwhole.within⟩
    refine ⟨?_, hcomplete⟩
    rw [bind_of_ok (Exec.attempt_run _ _), hsteps]
    rfl

theorem carriedOut_complete_iff (hvalid : validate r = .ok ()) (hread : r.read = none) (hdistinct : tree.Distinct)
    {success : Success} :
    (carriedOut engine matcher filter r tree (Ledger.start r) = some (.ok success) ∧
      success.coverage = .complete) ↔
    Whole engine matcher filter r tree ∧ success = wholeAnswer engine matcher filter r tree := by
  have hiff : ∀ l, (Ledger.traverse engine matcher r (plan engine filter r tree (r.maxDepth + 1) tree [])
      (Ledger.start r) = (.ok (), l) ∧ l.result.coverage = .complete) ↔ _ :=
    fun _ => traverse_complete_iff hvalid hread hdistinct
  have hanswer : ∀ l : Ledger, l.answer engine r = .ok { l.result with
      policySnapshotHash := snapshotHash engine l.records.observations
      elapsedMs := .nat 0 } := by
    intro l
    unfold Ledger.answer
    rw [hread]
    rfl
  unfold carriedOut
  constructor
  · rintro ⟨h, hcomplete⟩
    rcases hrun : Ledger.traverse engine matcher r (plan engine filter r tree (r.maxDepth + 1) tree [])
      (Ledger.start r) with ⟨stop | ⟨⟩, l⟩
    · rw [hrun] at h
      change stop.code.map Except.error = some (.ok success) at h
      cases hcode : stop.code <;> rw [hcode] at h <;> cases h
    · rw [hrun] at h
      change some (l.answer engine r) = _ at h
      rw [hanswer] at h
      obtain rfl := Except.ok.inj (Option.some.inj h)
      obtain ⟨hwhole, rfl⟩ := (hiff l).1 ⟨hrun, hcomplete⟩
      exact ⟨hwhole, rfl⟩
  · rintro ⟨hwhole, rfl⟩
    obtain ⟨hrun, hcomplete⟩ := (hiff _).2 ⟨hwhole, rfl⟩
    rw [hrun]
    exact ⟨congrArg some (hanswer _), hcomplete⟩

theorem planned_complete_iff (hread : r.read = none) (hdistinct : tree.Distinct) {success : Success} :
    (planned engine r tree = some (.ok success) ∧ success.coverage = .complete) ↔
      AnsweredWhole engine r tree success := by
  unfold planned
  constructor
  · rintro ⟨h, hcomplete⟩
    rcases hvalid : validate r with code | ⟨⟩
    · rw [hvalid] at h
      cases h
    rw [hvalid] at h
    cases hmatcher : engine.matcher r.pattern r.kind r.caseSensitive with
    | none =>
      rw [hmatcher] at h
      cases h
    | some matcher =>
      rw [hmatcher] at h
      rcases hscope : Scope.new engine r.scope with code | scope
      · rw [hscope] at h
        cases h
      · rw [hscope] at h
        exact ⟨hvalid, matcher, scope, hmatcher, hscope,
          (carriedOut_complete_iff hvalid hread hdistinct).1 ⟨h, hcomplete⟩⟩
  · rintro ⟨hvalid, matcher, scope, hmatcher, hscope, hwhole⟩
    rw [hvalid, hmatcher, hscope]
    exact (carriedOut_complete_iff hvalid hread hdistinct).2 hwhole

/-- A search that is complete answers what its tree has. -/
theorem answeredWhole_of_complete {σ φ : Type} {os : Os σ φ} {root : φ} {listed : List (DirName × Node)}
    (st : Static os (.dir listed) root) (hdistinct : Node.Distinct (.dir listed)) (hread : r.read = none)
    {w : World σ φ} (htime : ∀ s, (os.now s).1 < (os.now w.os).1 + r.deadlineMs * 1000000) {success : Success}
    (hrun : (search engine os root r w).1 = .ok success) (hcomplete : success.coverage = .complete) :
    AnsweredWhole engine r (.dir listed) success.timeless := by
  rw [← planned_complete_iff hread hdistinct]
  have hplanned := search_planned engine st hdistinct htime
  cases hplan : planned engine r (.dir listed) with
  | some outcome =>
    rw [hplan] at hplanned
    rw [hrun] at hplanned
    exact ⟨congrArg some hplanned.symm, hcomplete⟩
  | none =>
    rw [hplan] at hplanned
    exact absurd ((hplanned success hrun).symm.trans hcomplete) (by decide)

/-- What a tree can answer whole, a search of it answers. -/
theorem complete_of_answeredWhole {σ φ : Type} {os : Os σ φ} {root : φ} {listed : List (DirName × Node)}
    (st : Static os (.dir listed) root) (hdistinct : Node.Distinct (.dir listed)) (hread : r.read = none)
    {w : World σ φ} (htime : ∀ s, (os.now s).1 < (os.now w.os).1 + r.deadlineMs * 1000000) {success : Success}
    (h : AnsweredWhole engine r (.dir listed) success) :
    ∃ found, (search engine os root r w).1 = .ok found ∧ found.timeless = success ∧
      found.coverage = .complete := by
  obtain ⟨hplan, hcomplete⟩ := (planned_complete_iff hread hdistinct).2 h
  have hplanned := search_planned engine st hdistinct htime
  rw [hplan] at hplanned
  rcases hrun : (search engine os root r w).1 with code | found
  · rw [hrun] at hplanned
    cases hplanned
  · rw [hrun] at hplanned
    obtain rfl := Except.ok.inj hplanned
    exact ⟨found, rfl, rfl, hcomplete⟩

end Complete

/-- **When a search is complete**: with a deadline that does not pass, on any system that shows the tree, a
search is complete if and only if nothing in the tree stops it and the totals of the tree are within the
limits of the request, and then it answers with those totals. -/
theorem search_complete_iff {σ φ : Type} (engine : Engine) {os : Os σ φ} {root : φ}
    {listed : List (DirName × Node)} (st : Static os (.dir listed) root)
    (hdistinct : Node.Distinct (.dir listed)) (r : Request) (hread : r.read = none) (w : World σ φ)
    (htime : ∀ s, (os.now s).1 < (os.now w.os).1 + r.deadlineMs * 1000000) (success : Success) :
    ((search engine os root r w).1.map Success.timeless = .ok success ∧ success.coverage = .complete) ↔
      AnsweredWhole engine r (.dir listed) success := by
  constructor
  · rintro ⟨h, hcomplete⟩
    rcases hrun : (search engine os root r w).1 with code | found
    · rw [hrun] at h
      cases h
    · rw [hrun] at h
      obtain rfl := Except.ok.inj h
      exact answeredWhole_of_complete st hdistinct hread htime hrun hcomplete
  · intro h
    obtain ⟨found, hrun, rfl, hcomplete⟩ := complete_of_answeredWhole st hdistinct hread htime h
    exact ⟨congrArg (Except.map Success.timeless) hrun, hcomplete⟩

theorem slash_not_mem_b : (0x2f : UInt8) ∉ Utf8.encode ['b'] := by decide

/-- The entries of a tree with two files. -/
def twoNames : List (DirName × Node) :=
  [(.ofStr ['a'] slash_not_mem_a, .file (Utf8.encode "xa\n".toList)),
    (.ofStr ['b'] slash_not_mem_b, .file (Utf8.encode "aa\n".toList))]

theorem distinct_twoNames : Node.Distinct (.dir twoNames) := by
  refine .dir _ (by decide) (by decide) fun e he => ?_
  rcases List.mem_pair.1 he with rfl | rfl <;> exact .file _

theorem search_complete_iff_twoNames : ∃ success,
    (search Engine.plain (Node.os (.dir twoNames)) (.dir twoNames) (.literal ['a']) ⟨0, []⟩).1.map
      Success.timeless = .ok success ∧ AnsweredWhole Engine.plain (.literal ['a']) (.dir twoNames) success := by
  have hrun : ((search Engine.plain (Node.os (.dir twoNames)) (.dir twoNames) (.literal ['a']) ⟨0, []⟩).1.map
      Success.timeless).toOption.map Success.coverage = some .complete := by decide +kernel
  rcases h : (search Engine.plain (Node.os (.dir twoNames)) (.dir twoNames) (.literal ['a']) ⟨0, []⟩).1.map
    Success.timeless with code | success
  · rw [h] at hrun
    cases hrun
  · rw [h] at hrun
    exact ⟨success, rfl, (search_complete_iff Engine.plain (Node.static (.dir twoNames)) distinct_twoNames
      (.literal ['a']) rfl ⟨0, []⟩ (fun _ => Nat.zero_lt_succ _) success).1 ⟨h, Option.some.inj hrun⟩⟩

end JevGrep.Worker
