/-
# `JevGrep.Worker.Longest` — a search returns the longest start of the hits that its budgets allow.

`Runs`: whatever stops it, a part of a plan keeps a start of its hits, and where it stops for a budget the
next hit is the first without room. The stop passes through every directory above it unchanged.

* §1 runs; §2 the steps; §3 `search`; §4 larger budgets.
-/
import JevGrep.Lib.Prefix
import JevGrep.Worker.Totals

namespace JevGrep.Worker

open JevGrep.Lib
open Exec (bind_of_ok bind_of_error Keeps)
open Prefix (Longest)

/-! ## §1 — runs. -/

instance (bytes : Bytes) (found : List (Nat × Nat)) : Decidable (CutWell bytes found) :=
  inferInstanceAs (Decidable (∀ m ∈ found, _))

/-- A step that nothing but a limit can stop: the ignore files load, and the matches are well cut. -/
def Step.Sound (matcher : Bytes → List (Nat × Nat)) : Step → Prop
  | .broken => False
  | .file _ bytes => bytes.isEmpty = false → CutWell bytes (matcher bytes)
  | _ => True

instance (matcher : Bytes → List (Nat × Nat)) : ∀ step : Step, Decidable (step.Sound matcher)
  | .broken => inferInstanceAs (Decidable False)
  | .file _ bytes => inferInstanceAs (Decidable (bytes.isEmpty = false → CutWell bytes (matcher bytes)))
  | .tooDeep | .enter _ _ _ | .visited | .excluded => inferInstanceAs (Decidable True)

namespace Ledger

/-- What a part of a plan does to a ledger when it keeps these hits. -/
structure Took (r : Request) (l l' : Ledger) (kept : List Hit) : Prop where
  hits : l'.result.hits = l.result.hits ++ kept
  used : l'.usedBytes = l.usedBytes + chargeOf kept
  reasons : ∀ code ∈ l'.result.reasons, code ∈ l.result.reasons ∨ code = .depthLimit
  holds : Holds r l → Holds r l'

/-- How a part of a plan ends that has the hits `all` and kept `kept`. -/
def EndsAt (r : Request) (all kept : List Hit) (l : Ledger) : Except Stop Unit → Prop
  | .ok () => kept = all
  | .error .limitReached => (∃ next, kept ++ [next] <+: all) ∧ l.result.hits.length = r.maxMatches
  | .error .byteLimit => (∃ next, kept ++ [next] <+: all ∧ l.usedBytes + next.size > r.responseBytes) ∧
      l.result.hits.length ≠ r.maxMatches
  | .error _ => kept <+: all

/-- `m` keeps a start of `all`, up to the first hit without room. -/
def Runs (r : Request) (all : List Hit) (m : Entry) : Prop :=
  ∀ l, ∃ kept, Took r l (m l).2 kept ∧ EndsAt r all kept (m l).2 (m l).1

variable {r : Request} {all all' kept kept' : List Hit} {l l₁ l' : Ledger}

theorem Took.refl (l : Ledger) : Took r l l [] where
  hits := (List.append_nil _).symm
  used := rfl
  reasons _ h := .inl h
  holds h := h

theorem Took.trans (h : Took r l l₁ kept) (h' : Took r l₁ l' kept') : Took r l l' (kept ++ kept') where
  hits := by rw [h'.hits, h.hits, List.append_assoc]
  used := by rw [h'.used, h.used, chargeOf_append, Nat.add_assoc]
  reasons code hcode := by
    rcases h'.reasons code hcode with hcode | hcode
    · exact h.reasons code hcode
    · exact .inr hcode
  holds hl := h'.holds (h.holds hl)

/-- Where a part ends early, so does the whole. -/
theorem EndsAt.early {stop : Stop} (h : EndsAt r all kept l (.error stop)) :
    EndsAt r (all ++ all') kept l (.error stop) := by
  have hmore : ∀ {a : List Hit}, a <+: all → a <+: all ++ all' := fun h => h.trans (List.prefix_append _ _)
  cases stop with
  | limitReached => exact ⟨h.1.imp fun _ hnext => hmore hnext, h.2⟩
  | byteLimit => exact ⟨h.1.imp fun _ hnext => ⟨hmore hnext.1, hnext.2⟩, h.2⟩
  | _ => exact hmore h

/-- How the rest ends, so does the whole. -/
theorem EndsAt.later {out : Except Stop Unit} (h : EndsAt r all' kept' l out) :
    EndsAt r (all ++ all') (all ++ kept') l out := by
  have hmore : ∀ {a : List Hit}, a <+: all' → all ++ a <+: all ++ all' := fun h => (List.prefix_append_right_inj _).2 h
  rcases out with stop | ⟨⟩
  · cases stop with
    | limitReached =>
      obtain ⟨⟨next, hnext⟩, hfull⟩ := h
      exact ⟨⟨next, List.append_assoc .. ▸ hmore hnext⟩, hfull⟩
    | byteLimit =>
      obtain ⟨⟨next, hnext, hbytes⟩, hroom⟩ := h
      exact ⟨⟨next, List.append_assoc .. ▸ hmore hnext, hbytes⟩, hroom⟩
    | _ => exact hmore h
  · exact congrArg (all ++ ·) h

namespace Runs

theorem pure : Runs r [] (pure ()) := fun l => ⟨[], .refl l, rfl⟩

theorem bind {m n : Entry} (hm : Runs r all m) (hn : Runs r all' n) : Runs r (all ++ all') (m >>= fun _ => n) := by
  intro l
  obtain ⟨kept, htook, hends⟩ := hm l
  rcases hrun : m l with ⟨stop | ⟨⟩, l₁⟩ <;> rw [hrun] at htook hends
  · rw [bind_of_error hrun]
    exact ⟨kept, htook, hends.early⟩
  · rw [bind_of_ok hrun]
    obtain rfl := hends
    obtain ⟨kept', htook', hends'⟩ := hn l₁
    exact ⟨_, htook.trans htook', hends'.later⟩

/-- A change of a ledger that keeps no hit. -/
theorem modify {f : Ledger → Ledger} (hhits : ∀ l, (f l).result.hits = l.result.hits)
    (hused : ∀ l, (f l).usedBytes = l.usedBytes)
    (hreasons : ∀ l, ∀ code ∈ (f l).result.reasons, code ∈ l.result.reasons ∨ code = .depthLimit) :
    Runs r [] (.modify f) := fun l =>
  ⟨[], {
    hits := (hhits l).trans (List.append_nil _).symm
    used := hused l
    reasons := hreasons l
    holds := fun h => ⟨hhits l ▸ h.1, hused l ▸ h.2⟩ }, rfl⟩

/-- A stop that is not for a budget. -/
theorem fail {stop : Stop} (hlimit : stop ≠ .limitReached) (hbytes : stop ≠ .byteLimit) :
    Runs r all (.fail stop) := fun l => by
  refine ⟨[], .refl l, ?_⟩
  cases stop with
  | limitReached => exact absurd rfl hlimit
  | byteLimit => exact absurd rfl hbytes
  | _ => exact List.nil_prefix

theorem ite {c : Prop} [Decidable c] {m n : Entry} (ht : c → Runs r all m) (hf : ¬c → Runs r all n) :
    Runs r all (if c then m else n) := by
  split
  · exact ht ‹_›
  · exact hf ‹_›

end Runs

/-! ## §2 — the steps. -/

theorem keep_runs (hit : Hit) : Runs r [hit] (keep r hit) := by
  intro l
  rw [keep_run]
  by_cases hfull : l.result.hits.length = r.maxMatches
  · rw [if_pos hfull]
    exact ⟨[], .refl l, ⟨hit, List.prefix_rfl⟩, hfull⟩
  · rw [if_neg hfull]
    by_cases hbytes : l.usedBytes + hit.size > r.responseBytes
    · rw [if_pos hbytes]
      exact ⟨[], .refl l, ⟨hit, List.prefix_rfl, hbytes⟩, hfull⟩
    · rw [if_neg hbytes]
      refine ⟨[hit], ⟨rfl, rfl, fun _ h => .inl h, fun h => ?_⟩, rfl⟩
      obtain ⟨hhits, hused⟩ := h
      constructor
      · show (l.result.hits ++ [hit]).length ≤ r.maxMatches
        rw [List.length_append, List.length_singleton]
        omega
      · show l.usedBytes + (hit.size + 0) ≤ r.responseBytes
        omega

theorem keepAll_runs (path digest : Str) (bytes : Bytes) : ∀ found : List (Nat × Nat),
    Runs r (keptHits path digest bytes found) (keepAll r path digest bytes found)
  | [] => Runs.pure
  | (start, stop) :: rest => by
      rw [keepAll_cons]
      refine Runs.ite (fun hphantom => ?_) fun hphantom => Runs.ite (fun _ => ?_) fun _ => ?_
      · rw [keptHits, List.filter_cons_of_neg (by simp [hphantom])]
        exact keepAll_runs path digest bytes rest
      · rw [keptHits, List.filter_cons_of_pos (by simp [hphantom])]
        exact Runs.bind (keep_runs _) (keepAll_runs path digest bytes rest)
      · exact Runs.fail (by decide) (by decide)

section Perform

variable {engine : Engine} {matcher : Bytes → List (Nat × Nat)}

theorem search_eq (hread : r.read = none) (path : Str) (bytes : Bytes) :
    search engine matcher r path bytes = (.modify (fun l => { l with result := l.result.searched bytes }) >>= fun _ =>
      find engine matcher r path bytes) := by
  unfold search
  rw [hread]
  rfl

theorem find_runs (path : Str) (bytes : Bytes) :
    Runs r (fileHits engine matcher path bytes) (find engine matcher r path bytes) := by
  unfold find
  cases hempty : bytes.isEmpty with
  | true =>
    rw [if_pos rfl, fileHits, if_pos hempty]
    exact Runs.pure
  | false =>
    rw [if_neg Bool.false_ne_true, fileHits_eq path hempty]
    exact keepAll_runs path _ bytes _

theorem search_runs (hread : r.read = none) (path : Str) (bytes : Bytes) :
    Runs r (fileHits engine matcher path bytes) (search engine matcher r path bytes) := by
  have hcount : Runs r [] (.modify fun l => { l with result := l.result.searched bytes }) :=
    Runs.modify (fun _ => rfl) (fun _ => rfl) fun _ _ h => .inl h
  rw [search_eq hread, ← List.nil_append (fileHits engine matcher path bytes)]
  exact hcount.bind (find_runs path bytes)

/-- Ignore files stop a plan for one reason. -/
theorem enter_stop (dir : Str) (gitignore ignore : Option Bytes) :
    Exec.Triple (fun _ => True) (Records.enter dir gitignore ignore) (fun _ _ => True)
      (fun stop _ => stop = .entryLimit) := by
  have hload : ∀ path bytes, Exec.Triple (fun _ => True) (Records.load path bytes) (fun _ _ => True)
      (fun stop _ => stop = .entryLimit) := by
    intro path bytes
    cases bytes with
    | none => exact Exec.Triple.modify fun _ _ => trivial
    | some content =>
      have hover : ∀ f : Records → Records, Exec.Triple (fun _ => True)
          (.modify f >>= fun _ => .fail .entryLimit : Exec Records Stop Unit) (fun _ _ => True)
          (fun stop _ => stop = .entryLimit) := fun _ _ _ => rfl
      refine Exec.Triple.get_bind fun _ _ => Exec.Triple.con_pre (fun _ _ => trivial) ?_
      exact Exec.Triple.ite (fun _ => hover _) fun _ => Exec.Triple.ite (fun _ => hover _)
        fun _ => Exec.Triple.modify fun _ _ => trivial
  refine Exec.Triple.get_bind fun _ _ => Exec.Triple.ite (fun _ => Exec.Triple.fail fun _ _ => rfl) fun _ => ?_
  refine Exec.Triple.con_pre (fun _ _ => trivial) ?_
  exact Exec.Triple.bind (hload _ _) fun _ => hload _ _

theorem enter_runs (dir : Str) (gitignore ignore : Option Bytes) :
    Runs r [] (perform engine matcher r (.enter dir gitignore ignore)) := by
  intro l
  have hstop := enter_stop dir gitignore ignore l.records trivial
  show ∃ kept, Took r l { l with records := (Records.enter dir gitignore ignore l.records).2 } kept ∧
    EndsAt r [] kept _ (Records.enter dir gitignore ignore l.records).1
  refine ⟨[], ⟨(List.append_nil _).symm, rfl, fun _ h => .inl h, fun h => h⟩, ?_⟩
  rcases hrun : Records.enter dir gitignore ignore l.records with ⟨stop | ⟨⟩, records⟩
  · rw [hrun] at hstop
    obtain rfl : stop = .entryLimit := hstop
    exact List.nil_prefix
  · rfl

theorem visit_runs : Runs r [] (visit r) := by
  intro l
  have hvisited : Runs r [] (.modify fun l => { l with result := l.result.visited }) :=
    Runs.modify (fun _ => rfl) (fun _ => rfl) fun _ _ h => .inl h
  show ∃ kept, Took r l ((if l.result.counts.visited = r.maxEntries then .fail .entryLimit
      else .modify fun l => { l with result := l.result.visited } : Entry) l).2 kept ∧
    EndsAt r [] kept _ ((if l.result.counts.visited = r.maxEntries then .fail .entryLimit
      else .modify fun l => { l with result := l.result.visited } : Entry) l).1
  exact Runs.ite (fun _ => Runs.fail (by decide) (by decide)) (fun _ => hvisited) l

/-- A step keeps a start of its hits. -/
theorem perform_runs (hread : r.read = none) : ∀ step : Step,
    Runs r (step.tally engine matcher).hits (perform engine matcher r step)
  | .tooDeep => Runs.modify (fun _ => rfl) (fun _ => rfl) fun l code hcode => by
      change code ∈ (if Code.depthLimit ∈ l.result.reasons then l.result.reasons
        else l.result.reasons ++ [.depthLimit]) at hcode
      split at hcode
      · exact .inl hcode
      · rcases List.mem_append.1 hcode with hcode | hcode
        · exact .inl hcode
        · exact .inr (List.mem_singleton.1 hcode)
  | .enter dir gitignore ignore => enter_runs dir gitignore ignore
  | .broken => Runs.fail (by decide) (by decide)
  | .visited => visit_runs
  | .excluded => Runs.modify (fun _ => rfl) (fun _ => rfl) fun _ _ h => .inl h
  | .file path bytes => search_runs hread path bytes

/-- A plan keeps a start of its hits. -/
theorem performAll_runs (hread : r.read = none) : ∀ steps : List Step,
    Runs r (tallyOf engine matcher steps).hits (performAll engine matcher r steps)
  | [] => Runs.pure
  | step :: steps => Runs.bind (perform_runs hread step) (performAll_runs hread steps)

/-- `m` stops for nothing but a limit. -/
def Limited (m : Entry) : Prop := Exec.Triple (fun _ => True) m (fun _ _ => True)
  (fun stop _ => stop ∈ [Stop.entryLimit, .limitReached, .byteLimit])

theorem keep_limited (hit : Hit) : Limited (keep r hit) := by
  have hpay : Limited (pay r hit) := by
    refine Exec.Triple.get_bind fun _ _ => Exec.Triple.con_pre (fun _ _ => trivial) ?_
    exact Exec.Triple.ite (fun _ => Exec.Triple.fail fun _ _ => by decide) fun _ => Exec.Triple.modify fun _ _ => trivial
  refine Exec.Triple.get_bind fun _ _ => Exec.Triple.con_pre (fun _ _ => trivial) ?_
  exact Exec.Triple.ite (fun _ => Exec.Triple.fail fun _ _ => by decide) fun _ => hpay

theorem keepAll_limited (path digest : Str) (bytes : Bytes) : ∀ {found : List (Nat × Nat)},
    CutWell bytes found → Limited (keepAll r path digest bytes found)
  | [], _ => Exec.Triple.pure fun _ _ => trivial
  | (start, stop) :: rest, hcut => by
      have hrest : Limited (keepAll r path digest bytes rest) :=
        keepAll_limited path digest bytes fun m hm => hcut m (List.mem_cons_of_mem _ hm)
      rw [keepAll_cons]
      refine Exec.Triple.ite (fun _ => hrest) fun hphantom => Exec.Triple.ite (fun _ => ?_) fun hwell => ?_
      · exact Exec.Triple.bind (keep_limited _) fun _ => hrest
      · exact absurd (hcut (start, stop) List.mem_cons_self (Bool.eq_false_iff.2 hphantom)) hwell

theorem perform_limited (hread : r.read = none) : ∀ {step : Step}, step.Sound matcher →
    Limited (perform engine matcher r step)
  | .tooDeep, _ => Exec.Triple.modify fun _ _ => trivial
  | .excluded, _ => Exec.Triple.modify fun _ _ => trivial
  | .broken, h => h.elim
  | .visited, _ => by
      refine Exec.Triple.get_bind fun _ _ => Exec.Triple.con_pre (fun _ _ => trivial) ?_
      exact Exec.Triple.ite (fun _ => Exec.Triple.fail fun _ _ => by decide) fun _ =>
        Exec.Triple.modify fun _ _ => trivial
  | .enter dir gitignore ignore, _ => by
      have henter : Limited (.onPart Ledger.records (fun records l => { l with records })
          (Records.enter dir gitignore ignore) : Entry) :=
        Exec.Triple.onPart (enter_stop dir gitignore ignore) (fun _ _ => trivial) (fun _ _ _ _ _ => trivial)
          fun _ stop _ _ hstop => by
            obtain rfl : stop = .entryLimit := hstop
            decide
      exact henter
  | .file path bytes, hcut => by
      have hcount : Limited (.modify fun l => { l with result := l.result.searched bytes }) :=
        Exec.Triple.modify fun _ _ => trivial
      refine Exec.Triple.bind hcount fun _ => ?_
      rw [hread]
      refine Exec.Triple.ite (fun _ => Exec.Triple.pure fun _ _ => trivial) fun hempty => ?_
      exact keepAll_limited path _ bytes (hcut (Bool.eq_false_iff.2 hempty))

/-- A sound plan without a read stops for a limit alone. -/
theorem performAll_limited (hread : r.read = none) : ∀ {steps : List Step}, (∀ step ∈ steps, step.Sound matcher) →
    Limited (performAll engine matcher r steps)
  | [], _ => Exec.Triple.pure fun _ _ => trivial
  | step :: steps, hsound => by
      obtain ⟨hone, hrest⟩ := List.forall_mem_cons.1 hsound
      have hstep : Limited (perform engine matcher r step) := perform_limited hread hone
      exact Exec.Triple.bind hstep fun _ => performAll_limited hread hrest

end Perform

end Ledger

/-! ## §3 — `search`. -/

/-- Hits within the two budgets of a response. -/
def Fits (r : Request) (hits : List Hit) : Prop :=
  hits.length ≤ r.maxMatches ∧ 2048 + chargeOf hits ≤ r.responseBytes

theorem fits_closed (r : Request) : Prefix.Closed (Fits r) := by
  rintro a _ ⟨rest, rfl⟩ ⟨hlength, hcharge⟩
  rw [List.length_append] at hlength
  rw [chargeOf_append] at hcharge
  exact ⟨by omega, by omega⟩

/-- The hits are the longest start of `all` within the budgets, and the reasons say so. -/
structure Filled (r : Request) (all : List Hit) (s : Success) : Prop where
  longest : Longest (Fits r) all s.hits
  whole : s.hits = all → s.reasons = []
  cut : s.hits ≠ all → s.reasons = [if s.hits.length = r.maxMatches then .limitReached else .byteLimit]

section Search

variable {engine : Engine} {matcher : Bytes → List (Nat × Nat)} {r : Request}

theorem append_singleton_ne {all kept : List Hit} {next : Hit} (h : kept ++ [next] <+: all) : kept ≠ all := by
  rintro rfl
  have hle := h.length_le
  rw [List.length_append, List.length_singleton] at hle
  omega

/-- A plan that stopped for a budget kept what fits. -/
theorem filled_of_stopped {all kept : List Hit} {l : Ledger} {code : Code}
    (htook : Ledger.Took r (Ledger.start r) l kept) (hfits : Fits r kept) (hdepth : .depthLimit ∉ (l.result.issue code).reasons)
    (hcode : code = if kept.length = r.maxMatches then .limitReached else .byteLimit)
    (hnext : ∃ next, kept ++ [next] <+: all ∧ ¬Fits r (kept ++ [next])) : Filled r all (l.result.issue code) := by
  obtain ⟨next, hnext, hfull⟩ := hnext
  have hhits : l.result.hits = kept := htook.hits
  have hbefore : l.result.reasons = [] := by
    refine List.eq_nil_iff_forall_not_mem.2 fun c hc => ?_
    obtain rfl := (htook.reasons c hc).resolve_left List.not_mem_nil
    apply hdepth
    show _ ∈ if code ∈ l.result.reasons then l.result.reasons else l.result.reasons ++ [code]
    split
    · exact hc
    · exact List.mem_append_left _ hc
  have hreasons : (l.result.issue code).reasons = [code] := by
    show (if code ∈ l.result.reasons then l.result.reasons else l.result.reasons ++ [code]) = _
    rw [hbefore]
    rfl
  constructor
  · show Longest (Fits r) all l.result.hits
    rw [hhits]
    exact .stopped (fits_closed r) hnext hfits hfull
  · intro heq
    exact absurd (hhits.symm.trans heq) (append_singleton_ne hnext)
  · intro _
    rw [hreasons, hcode]
    show _ = [if l.result.hits.length = _ then _ else _]
    rw [hhits]

/-- A plan is carried out, and its end is sorted. -/
theorem traverse_run (hscan : r.validateScopeOnly = false) (steps : List Step) (l : Ledger) :
    Ledger.traverse engine matcher r steps l = Ledger.settle r (Ledger.performAll engine matcher r steps l).1
      (Ledger.performAll engine matcher r steps l).2 := by
  unfold Ledger.traverse
  rw [hscan]
  exact bind_of_ok (Exec.attempt_run _ _)

theorem traverse_filled (hread : r.read = none) (hscan : r.validateScopeOnly = false)
    (hvalid : validate r = .ok ()) {steps : List Step} (hsound : ∀ step ∈ steps, step.Sound matcher) :
    ∃ l, Ledger.traverse engine matcher r steps (Ledger.start r) = (.ok (), l) ∧
      (.entryLimit ∉ l.result.reasons → .depthLimit ∉ l.result.reasons →
        Filled r (tallyOf engine matcher steps).hits l.result) := by
  have hruns : Ledger.Runs r (tallyOf engine matcher steps).hits (Ledger.performAll engine matcher r steps) :=
    Ledger.performAll_runs hread steps
  have hlimited : Ledger.Limited (Ledger.performAll engine matcher r steps) :=
    Ledger.performAll_limited hread hsound
  obtain ⟨kept, htook, hends⟩ := hruns (Ledger.start r)
  have hstop := hlimited (Ledger.start r) trivial
  have hholds := htook.holds (within_start hvalid).holds
  have hhits : (Ledger.performAll engine matcher r steps (Ledger.start r)).2.result.hits = kept := htook.hits
  have hused : (Ledger.performAll engine matcher r steps (Ledger.start r)).2.usedBytes = 2048 + chargeOf kept :=
    htook.used
  have hfits : Fits r kept := ⟨hhits ▸ hholds.1, hused ▸ hholds.2⟩
  rw [traverse_run hscan]
  rcases hsteps : Ledger.performAll engine matcher r steps (Ledger.start r) with ⟨stop | ⟨⟩, l⟩ <;>
    rw [hsteps] at htook hends hstop hhits hused
  · have hissue : ∀ code, stop.code = some code → code ≠ .matchEncoding →
        Ledger.sorted r stop l = (.ok (), { l with result := l.result.issue code }) := by
      intro code hcode hne
      have hplain : ¬(r.read.isSome || code == .matchEncoding) = true := by simp [hread, hne]
      unfold Ledger.sorted
      rw [hcode]
      show (if r.read.isSome || code == .matchEncoding then _ else _ : Entry) l = _
      rw [if_neg hplain]
      rfl
    have hstop : stop ∈ [Stop.entryLimit, .limitReached, .byteLimit] := hstop
    -- without a read only a limit stops the pass; two of them name a budget of the hits
    cases stop with
    | entryLimit =>
      refine ⟨_, hissue .entryLimit rfl (by decide), fun hentry => absurd ?_ hentry⟩
      show _ ∈ if _ then _ else _
      split
      · assumption
      · exact List.mem_append_right _ List.mem_cons_self
    | limitReached =>
      obtain ⟨⟨next, hnext⟩, hfull⟩ := hends
      rw [hhits] at hfull
      refine ⟨_, hissue .limitReached rfl (by decide), fun _ hdepth => ?_⟩
      refine filled_of_stopped htook hfits hdepth (if_pos hfull).symm ⟨next, hnext, fun h => ?_⟩
      have hlength := h.1
      rw [List.length_append, List.length_singleton] at hlength
      omega
    | byteLimit =>
      obtain ⟨⟨next, hnext, hbytes⟩, hroom⟩ := hends
      rw [hhits] at hroom
      refine ⟨_, hissue .byteLimit rfl (by decide), fun _ hdepth => ?_⟩
      refine filled_of_stopped htook hfits hdepth (if_neg hroom).symm ⟨next, hnext, fun h => ?_⟩
      have hcharge := h.2
      rw [chargeOf_push] at hcharge
      have hbytes : l.usedBytes + next.size > r.responseBytes := hbytes
      have hused : l.usedBytes = 2048 + chargeOf kept := hused
      omega
    | _ => exact absurd hstop (by decide)
  · -- all steps were taken, and every hit is kept
    obtain rfl := hends
    refine ⟨l, rfl, fun _ hdepth => ⟨?_, fun _ => ?_, fun hne => absurd hhits hne⟩⟩
    · rw [hhits]
      exact .whole hfits
    · refine List.eq_nil_iff_forall_not_mem.2 fun code hcode => ?_
      obtain rfl := (htook.reasons code hcode).resolve_left List.not_mem_nil
      exact hdepth hcode

end Search

/-- Where a plan is traversed to its end, the search succeeds with that ledger. -/
theorem search_of_traverse {σ φ : Type} {engine : Engine} {os : Os σ φ} {root : φ}
    {listed : List (DirName × Node)} (st : Static os (.dir listed) root)
    (hdistinct : Node.Distinct (.dir listed)) {r : Request} (hread : r.read = none)
    (hvalid : validate r = .ok ()) {matcher : Bytes → List (Nat × Nat)}
    (hmatcher : engine.matcher r.pattern r.kind r.caseSensitive = some matcher) {scope : Scope}
    (hscope : Scope.new engine r.scope = .ok scope) {w : World σ φ}
    (htime : ∀ s, (os.now s).1 < (os.now w.os).1 + r.deadlineMs * 1000000) {l : Ledger}
    (htraverse : Ledger.traverse engine matcher r (planOf engine scope r (.dir listed)) (Ledger.start r)
      = (.ok (), l)) :
    ∃ success w', search engine os root r w = (.ok success, w') ∧
      success.hits = l.result.hits ∧ success.reasons = l.result.reasons := by
  have hplanned := search_planned engine st hdistinct htime
  have houtcome : planned engine r (.dir listed) = some (l.answer engine r) := by
    unfold planned
    rw [hvalid, hmatcher, hscope]
    show carriedOut engine matcher scope.toFilter r (.dir listed) (Ledger.start r) = _
    unfold carriedOut
    rw [htraverse]
  have hanswer : l.answer engine r = .ok { l.result with
      policySnapshotHash := snapshotHash engine l.records.observations
      elapsedMs := .nat 0 } := by
    unfold Ledger.answer
    rw [hread]
    rfl
  rw [houtcome, hanswer] at hplanned
  rcases hrun : search engine os root r w with ⟨code | success, w'⟩
  · rw [hrun] at hplanned
    cases hplanned
  · rw [hrun] at hplanned
    have hboth := congrArg (fun s => (s.hits, s.reasons)) (Except.ok.inj hplanned)
    exact ⟨success, w', rfl, Prod.mk.inj hboth⟩

/-- **A search returns the longest start of the hits that its budgets allow.** On a system that shows a tree
whose ignore files load and whose matches are well cut, with a deadline that does not pass, a search without
a read succeeds; if no limit on entries, depth or ignore files was met, it returns the longest start of the
hits of the tree with `max_matches` hits at most that fit into `response_bytes`, is complete exactly if that is
all of them, and says otherwise which of the two budgets was short. -/
theorem search_longest {σ φ : Type} (engine : Engine) {os : Os σ φ} {root : φ}
    {listed : List (DirName × Node)} (st : Static os (.dir listed) root)
    (hdistinct : Node.Distinct (.dir listed)) (r : Request) (hread : r.read = none)
    (hscan : r.validateScopeOnly = false) (hvalid : validate r = .ok ())
    {matcher : Bytes → List (Nat × Nat)} (hmatcher : engine.matcher r.pattern r.kind r.caseSensitive = some matcher)
    {scope : Scope} (hscope : Scope.new engine r.scope = .ok scope)
    (hsound : ∀ step ∈ planOf engine scope r (.dir listed), step.Sound matcher) (w : World σ φ)
    (htime : ∀ s, (os.now s).1 < (os.now w.os).1 + r.deadlineMs * 1000000) :
    ∃ success, (search engine os root r w).1 = .ok success ∧
      (.entryLimit ∉ success.reasons → .depthLimit ∉ success.reasons →
        Filled r (tallyOf engine matcher (planOf engine scope r (.dir listed))).hits success ∧
        (success.coverage = .complete ↔
          success.hits = (tallyOf engine matcher (planOf engine scope r (.dir listed))).hits)) := by
  obtain ⟨l, htraverse, hfilled⟩ := traverse_filled hread hscan hvalid hsound
  obtain ⟨success, w', hrun, hhits, hreasons⟩ :=
    search_of_traverse st hdistinct hread hvalid hmatcher hscope htime htraverse
  obtain ⟨_, _, -, hpromised⟩ := search_promised hrun
  refine ⟨success, congrArg Prod.fst hrun, fun hentry hdepth => ?_⟩
  rw [hreasons] at hentry hdepth
  have hfill := hfilled hentry hdepth
  refine ⟨⟨hhits ▸ hfill.longest, ?_, ?_⟩, ?_⟩
  · rw [hhits, hreasons]
    exact hfill.whole
  · rw [hhits, hreasons]
    exact hfill.cut
  · rw [hpromised.reasoned.coverage, hhits, hreasons]
    refine ⟨fun hnone => ?_, hfill.whole⟩
    by_contra hne
    rw [hfill.cut hne] at hnone
    cases hnone

/-- A literal search with room for two hits. -/
def Request.two : Request := { Request.literal ['a'] with maxMatches := 2 }

theorem search_longest_twoNames : ∃ success,
    (search Engine.plain (Node.os (.dir twoNames)) (.dir twoNames) .two ⟨0, []⟩).1 = .ok success ∧
      Filled .two (tallyOf Engine.plain (literalMatches (Utf8.encode ['a']) 0 0)
        (planOf Engine.plain oneFileStart.scope .two (.dir twoNames))).hits success ∧
      success.hits.length = 2 := by
  have hfound : (search Engine.plain (Node.os (.dir twoNames)) (.dir twoNames) .two ⟨0, []⟩).1.toOption.map
      (fun s => (s.reasons, s.hits.length)) = some ([.limitReached], 2) := by decide +kernel
  obtain ⟨success, hrun, h⟩ := search_longest Engine.plain (Node.static (.dir twoNames)) distinct_twoNames .two rfl
    rfl rfl (show Engine.plain.matcher ['a'] .literal true = some (literalMatches (Utf8.encode ['a']) 0 0) from rfl)
    (show Scope.new Engine.plain { respectIgnore := true } = .ok oneFileStart.scope from rfl) (by decide +kernel)
    ⟨0, []⟩ fun _ => Nat.zero_lt_succ _
  rw [hrun] at hfound
  obtain ⟨hreasons, hlength⟩ := Prod.mk.inj (Option.some.inj hfound)
  have hentry : Code.entryLimit ∉ success.reasons := by
    rw [hreasons]
    decide
  have hdepth : Code.depthLimit ∉ success.reasons := by
    rw [hreasons]
    decide
  exact ⟨success, hrun, (h hentry hdepth).1, hlength⟩

/-! ## §4 — larger budgets. -/

/-- The same request with room for more. -/
structure Roomier (r r' : Request) : Prop where
  same : r' = { r with
    maxMatches := r'.maxMatches
    responseBytes := r'.responseBytes
    maxEntries := r'.maxEntries
    deadlineMs := r'.deadlineMs }
  maxMatches : r.maxMatches ≤ r'.maxMatches
  responseBytes : r.responseBytes ≤ r'.responseBytes
  maxEntries : r.maxEntries ≤ r'.maxEntries

namespace Ledger

/-- A ledger within the limits that a larger request moves. -/
structure Roomy (r : Request) (l : Ledger) : Prop where
  holds : Holds r l
  visited : l.result.counts.visited ≤ r.maxEntries

/-- `m` does what `p` does as long as `p` goes on, and keeps the hits of `p` where `p` stops. -/
def Extends (r : Request) (m p : Entry) : Prop :=
  Exec.Simulates (fun s t => s = t ∧ Roomy r t) m p (fun _ _ s t => s = t ∧ Roomy r t)
    fun _ _ s t => t.result.hits <+: s.result.hits

variable {r r' : Request} {m n p q : Entry}

theorem Runs.grows {all : List Hit} (h : Runs r all m) (l : Ledger) : l.result.hits <+: (m l).2.result.hits := by
  obtain ⟨kept, htook, -⟩ := h l
  rw [htook.hits]
  exact List.prefix_append _ _

theorem Holds.more (h : Roomier r r') {l : Ledger} (hl : Holds r l) : Holds r' l :=
  ⟨Nat.le_trans hl.1 h.maxMatches, Nat.le_trans hl.2 h.responseBytes⟩

namespace Extends

theorem pure : Extends r (pure ()) (pure ()) := Exec.Simulates.pure fun _ _ h => h

theorem bind {all : List Hit} (hm : Extends r m p) (hn : Extends r n q) (hruns : Runs r' all n) :
    Extends r (m >>= fun _ => n) (p >>= fun _ => q) :=
  Exec.Simulates.bind hm (fun _ _ => hn) fun _ _ s _ hlost => hlost.trans (hruns.grows s)

/-- A change that leaves hits, bytes and entries alone. -/
theorem modify {f : Ledger → Ledger} (hroom : ∀ l, Roomy r l → Roomy r (f l)) : Extends r (.modify f) (.modify f) :=
  Exec.Simulates.modify fun s t h => by
    obtain ⟨rfl, hl⟩ := h
    exact ⟨rfl, hroom s hl⟩

theorem fail {stop : Stop} : Extends r (.fail stop) (.fail stop) :=
  Exec.Simulates.fail fun s t h => by
    obtain ⟨rfl, -⟩ := h
    exact List.prefix_rfl

theorem ite {c : Prop} [Decidable c] (ht : c → Extends r m p) (hf : ¬c → Extends r n q) :
    Extends r (if c then m else n) (if c then p else q) := Exec.Simulates.ite ht hf

end Extends

theorem keep_extends (h : Roomier r r') (hit : Hit) : Extends r (keep r' hit) (keep r hit) := by
  rintro s _ ⟨rfl, hroom⟩
  have hgrows := (keep_runs (r := r') hit).grows s
  rcases hrun : keep r hit s with ⟨stop | ⟨⟩, t⟩
  · -- what is not kept leaves the ledger as it was
    have hsame : t = s := by
      rw [keep_run] at hrun
      split at hrun
      · exact (Prod.mk.inj hrun).2.symm
      · split at hrun
        · exact (Prod.mk.inj hrun).2.symm
        · cases hrun
    rw [hsame]
    exact hgrows
  · obtain ⟨rfl, hholds⟩ := (keep_iff hroom.holds).1 hrun
    have hmore := (keep_iff (hroom.holds.more h)).2 ⟨rfl, hholds.more h⟩
    exact ⟨(), _, hmore, rfl, hholds, hroom.visited⟩

theorem keepAll_extends (h : Roomier r r') (path digest : Str) (bytes : Bytes) : ∀ found : List (Nat × Nat),
    Extends r (keepAll r' path digest bytes found) (keepAll r path digest bytes found)
  | [] => Extends.pure
  | (start, stop) :: rest => by
      rw [keepAll_cons, keepAll_cons]
      refine Extends.ite (fun _ => keepAll_extends h path digest bytes rest) fun _ => Extends.ite (fun _ => ?_)
        fun _ => Extends.fail
      exact (keep_extends h _).bind (keepAll_extends h path digest bytes rest) (keepAll_runs path digest bytes rest)

theorem visit_extends (h : Roomier r r') : Extends r (visit r') (visit r) := by
  rintro s _ ⟨rfl, hroom⟩
  have hgrows := (visit_runs (r := r')).grows s
  have hvisit : ∀ r : Request, visit r s = if s.result.counts.visited = r.maxEntries then (.error .entryLimit, s)
      else (.ok (), { s with result := s.result.visited }) := by
    intro r
    show (if s.result.counts.visited = r.maxEntries then .fail .entryLimit
      else .modify fun l => { l with result := l.result.visited } : Entry) s = _
    split <;> rfl
  have hle := hroom.visited
  by_cases hfull : s.result.counts.visited = r.maxEntries
  · have hrun : visit r s = (.error .entryLimit, s) := (hvisit r).trans (if_pos hfull)
    rw [hrun]
    exact hgrows
  · have hmore := h.maxEntries
    have hroom' : ¬s.result.counts.visited = r'.maxEntries := by omega
    rw [hvisit r, if_neg hfull]
    refine ⟨(), _, (hvisit r').trans (if_neg hroom'), rfl, hroom.holds, ?_⟩
    show s.result.counts.visited + 1 ≤ r.maxEntries
    omega

section Perform

variable {engine : Engine} {matcher : Bytes → List (Nat × Nat)}

theorem enter_extends (dir : Str) (gitignore ignore : Option Bytes) :
    Extends r (perform engine matcher r' (.enter dir gitignore ignore))
      (perform engine matcher r (.enter dir gitignore ignore)) := by
  rintro s _ ⟨rfl, hroom⟩
  have hrun : ∀ r : Request, perform engine matcher r (.enter dir gitignore ignore) s
      = ((Records.enter dir gitignore ignore s.records).1,
        { s with records := (Records.enter dir gitignore ignore s.records).2 }) := fun _ => rfl
  rw [hrun r, hrun r']
  rcases Records.enter dir gitignore ignore s.records with ⟨stop | ⟨⟩, records⟩
  · exact List.prefix_rfl
  · exact ⟨(), _, rfl, rfl, hroom.holds, hroom.visited⟩

theorem perform_extends (h : Roomier r r') (hread : r.read = none) (hread' : r'.read = none) : ∀ step : Step,
    Extends r (perform engine matcher r' step) (perform engine matcher r step)
  | .tooDeep => Extends.modify fun _ hl => ⟨hl.holds, hl.visited⟩
  | .enter dir gitignore ignore => enter_extends dir gitignore ignore
  | .broken => Extends.fail
  | .visited => visit_extends h
  | .excluded => Extends.modify fun _ hl => ⟨hl.holds, hl.visited⟩
  | .file path bytes => by
      have hcount : Extends r (.modify fun l => { l with result := l.result.searched bytes })
          (.modify fun l => { l with result := l.result.searched bytes }) :=
        Extends.modify fun _ hl => ⟨hl.holds, hl.visited⟩
      have hfind : Extends r (find engine matcher r' path bytes) (find engine matcher r path bytes) :=
        Extends.ite (fun _ => Extends.pure) fun _ => keepAll_extends h path _ bytes _
      show Extends r (search engine matcher r' path bytes) (search engine matcher r path bytes)
      rw [search_eq hread, search_eq hread']
      exact hcount.bind hfind (find_runs path bytes)

/-- With room for more a plan does what it did, and goes on where it stopped. -/
theorem performAll_extends (h : Roomier r r') (hread : r.read = none) (hread' : r'.read = none) :
    ∀ steps : List Step, Extends r (performAll engine matcher r' steps) (performAll engine matcher r steps)
  | [] => Extends.pure
  | step :: steps => (perform_extends h hread hread' step).bind (performAll_extends h hread hread' steps)
      (performAll_runs hread' steps)

end Perform

end Ledger

section Roomier

variable {engine : Engine} {filter : Filter} {r r' : Request} {tree : Node}

/-- A plan asks for the read, the file limit and the depth of the request alone. -/
theorem plan_congr (hread : r'.read = r.read) (hfile : r'.maxFileBytes = r.maxFileBytes) :
    ∀ (levels : Nat) (node : Node) (dir : Str),
      plan engine filter r' tree levels node dir = plan engine filter r tree levels node dir
  | 0, _, _ => rfl
  | levels + 1, .file _, _ => rfl
  | levels + 1, .other, _ => rfl
  | levels + 1, .dir entries, dir => by
      have hbelow : plan engine filter r' tree levels = plan engine filter r tree levels :=
        funext fun node => funext fun dir => plan_congr hread hfile levels node dir
      have hsteps : entrySteps engine filter r' tree (plan engine filter r tree levels) dir
          = entrySteps engine filter r tree (plan engine filter r tree levels) dir := by
        funext entry
        unfold entrySteps nameSteps aside nodeSteps fileSteps
        rw [hread, hfile]
      rw [plan_dir, plan_dir, hbelow, hsteps]

theorem Roomier.start (h : Roomier r r') : Ledger.start r' = Ledger.start r := by
  rw [h.same]
  rfl

theorem Roomier.planOf (h : Roomier r r') (scope : Scope) :
    planOf engine scope r' tree = planOf engine scope r tree := by
  have hdepth : r'.maxDepth = r.maxDepth := by rw [h.same]
  unfold Worker.planOf
  rw [hdepth]
  exact plan_congr (by rw [h.same]) (by rw [h.same]) _ _ _

theorem Ledger.Within.more (h : Roomier r r') {l : Ledger} (hl : l.Within r) : l.Within r' where
  visited := Nat.le_trans hl.visited h.maxEntries
  hits := Nat.le_trans hl.hits h.maxMatches
  used := Nat.le_trans hl.used h.responseBytes
  policyBytes := hl.policyBytes
  policyLines := hl.policyLines
  observations := hl.observations

/-- What is answered whole is answered whole with room for more. -/
theorem AnsweredWhole.more (h : Roomier r r') (hvalid : validate r' = .ok ()) {success : Success}
    (hs : AnsweredWhole engine r tree success) : AnsweredWhole engine r' tree success := by
  obtain ⟨matcher, scope, hmatcher, hscope, hwhole, rfl⟩ := hs.answered
  have hsteps : scheduled engine scope.toFilter r' tree = scheduled engine scope.toFilter r tree := by
    have hscan : r'.validateScopeOnly = r.validateScopeOnly := by rw [h.same]
    have hplan : Worker.planOf engine scope r' tree = Worker.planOf engine scope r tree := h.planOf scope
    unfold scheduled
    rw [hscan]
    split
    · rfl
    · exact hplan
  have hledger : wholeLedger engine matcher scope.toFilter r' tree
      = wholeLedger engine matcher scope.toFilter r tree := by
    rw [wholeLedger, wholeLedger, hsteps, h.start]
  refine ⟨hvalid, matcher, scope, ?_, ?_, ⟨?_, ?_⟩, ?_⟩
  · rw [h.same]
    exact hmatcher
  · rw [h.same]
    exact hscope
  · rw [hsteps]
    exact hwhole.clean
  · rw [hledger]
    exact hwhole.within.more h
  · rw [wholeAnswer, wholeAnswer, hledger]

/-- The hits of a traversal are those its plan was carried out with. -/
theorem traverse_hits {matcher : Bytes → List (Nat × Nat)} (hscan : r.validateScopeOnly = false)
    {steps : List Step} {l l' : Ledger} (h : Ledger.traverse engine matcher r steps l = (.ok (), l')) :
    l'.result.hits = (Ledger.performAll engine matcher r steps l).2.result.hits := by
  rw [traverse_run hscan] at h
  rcases hrun : (Ledger.performAll engine matcher r steps l).1 with stop | ⟨⟩ <;> rw [hrun] at h
  · obtain ⟨code, rfl⟩ := sorted_ok h
    rfl
  · obtain ⟨-, rfl⟩ := Prod.mk.inj h
    rfl

end Roomier

/-- **Larger budgets only add hits.** On systems that show one tree, the same search with room for more
hits, bytes or entries returns the hits it returned before and goes on behind them; a search that was complete
returns the same. -/
theorem search_roomier {σ φ σ' φ' : Type} (engine : Engine) {os : Os σ φ} {os' : Os σ' φ'} {root : φ} {root' : φ'}
    {listed : List (DirName × Node)} (st : Static os (.dir listed) root) (st' : Static os' (.dir listed) root')
    (hdistinct : Node.Distinct (.dir listed)) {r r' : Request} (hmore : Roomier r r') (hread : r.read = none)
    (hscan : r.validateScopeOnly = false) (hvalid : validate r = .ok ()) (hvalid' : validate r' = .ok ())
    {matcher : Bytes → List (Nat × Nat)} (hmatcher : engine.matcher r.pattern r.kind r.caseSensitive = some matcher)
    {scope : Scope} (hscope : Scope.new engine r.scope = .ok scope)
    (hsound : ∀ step ∈ planOf engine scope r (.dir listed), step.Sound matcher) (w : World σ φ) (w' : World σ' φ')
    (htime : ∀ s, (os.now s).1 < (os.now w.os).1 + r.deadlineMs * 1000000)
    (htime' : ∀ s, (os'.now s).1 < (os'.now w'.os).1 + r'.deadlineMs * 1000000) :
    ∃ success success', (search engine os root r w).1 = .ok success ∧
      (search engine os' root' r' w').1 = .ok success' ∧ success.hits <+: success'.hits ∧
      (success.coverage = .complete → success'.timeless = success.timeless) := by
  have hread' : r'.read = none := by rw [hmore.same]; exact hread
  have hscan' : r'.validateScopeOnly = false := by rw [hmore.same]; exact hscan
  have hmatcher' : engine.matcher r'.pattern r'.kind r'.caseSensitive = some matcher := by
    rw [hmore.same]; exact hmatcher
  have hscope' : Scope.new engine r'.scope = .ok scope := by rw [hmore.same]; exact hscope
  have hplan : planOf engine scope r' (.dir listed) = planOf engine scope r (.dir listed) := hmore.planOf scope
  obtain ⟨l, htraverse, -⟩ := traverse_filled hread hscan hvalid hsound
  obtain ⟨l', htraverse', -⟩ := traverse_filled hread' hscan' hvalid' (hplan.symm ▸ hsound)
  obtain ⟨s, w₁, hrun, hhits, -⟩ := search_of_traverse st hdistinct hread hvalid hmatcher hscope htime htraverse
  obtain ⟨s', w₁', hrun', hhits', -⟩ :=
    search_of_traverse st' hdistinct hread' hvalid' hmatcher' hscope' htime' htraverse'
  have hok : (search engine os root r w).1 = .ok s := congrArg Prod.fst hrun
  have hok' : (search engine os' root' r' w').1 = .ok s' := congrArg Prod.fst hrun'
  refine ⟨s, s', hok, hok', ?_, fun hcomplete => ?_⟩
  · rw [hhits, hhits', traverse_hits hscan htraverse, traverse_hits hscan' htraverse', hplan, hmore.start]
    have hextends : Ledger.Extends r
        (Ledger.performAll engine matcher r' (planOf engine scope r (.dir listed)))
        (Ledger.performAll engine matcher r (planOf engine scope r (.dir listed))) :=
      Ledger.performAll_extends hmore hread hread' _
    have hroomy : Ledger.Roomy r (Ledger.start r) := ⟨(within_start hvalid).holds, Nat.zero_le _⟩
    have hends := hextends (Ledger.start r) (Ledger.start r) ⟨rfl, hroomy⟩
    rcases hp : Ledger.performAll engine matcher r (planOf engine scope r (.dir listed)) (Ledger.start r)
      with ⟨stop | ⟨⟩, t⟩ <;> rw [hp] at hends
    · exact hends
    · obtain ⟨_, _, hm, rfl, -⟩ := hends
      rw [hm]
  · have hwhole := (answeredWhole_of_complete st hdistinct hread htime hok hcomplete).more hmore hvalid'
    obtain ⟨found, hfound, hsame, -⟩ := complete_of_answeredWhole st' hdistinct hread' htime' hwhole
    obtain rfl := Except.ok.inj (hfound.symm.trans hok')
    exact hsame

theorem search_roomier_twoNames : ∃ success success',
    (search Engine.plain (Node.os (.dir twoNames)) (.dir twoNames) .two ⟨0, []⟩).1 = .ok success ∧
      (search Engine.plain (Node.os (.dir twoNames)) (.dir twoNames) (.literal ['a']) ⟨0, []⟩).1 = .ok success' ∧
      success.hits <+: success'.hits := by
  obtain ⟨success, success', hrun, hrun', hstart, -⟩ := search_roomier Engine.plain (Node.static (.dir twoNames))
    (Node.static (.dir twoNames)) distinct_twoNames
    (show Roomier .two (.literal ['a']) from ⟨rfl, by decide, by decide, by decide⟩) rfl rfl rfl rfl
    (show Engine.plain.matcher ['a'] .literal true = some (literalMatches (Utf8.encode ['a']) 0 0) from rfl)
    (show Scope.new Engine.plain { respectIgnore := true } = .ok oneFileStart.scope from rfl) (by decide +kernel)
    ⟨0, []⟩ ⟨0, []⟩ (fun _ => Nat.zero_lt_succ _) fun _ => Nat.zero_lt_succ _
  exact ⟨success, success', hrun, hrun', hstart⟩

end JevGrep.Worker
