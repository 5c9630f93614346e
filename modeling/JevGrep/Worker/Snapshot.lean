/-
# `JevGrep.Worker.Snapshot` — the snapshot hash names the rules that were applied.

`snapshot_hash` hashes the records of the ignore files; `allows` asks the compiled rules. Where no
directory stream repeats a name, both maps of a scope are filled for each directory once and together, so
the rules an entry was checked with are those of the records in the end. §1 the text that is hashed;
§2 what `enter` does to the log, the records and the rules; §3 both along the walk; §4 a run of `search`;
§5 two runs.
-/
import JevGrep.Worker.Budget
import JevGrep.Worker.Observed
import JevGrep.Worker.Read

namespace JevGrep.Worker

open JevGrep.Lib
open JevGrep.Lib.Utf16 (utf8Len)
open Exec (Triple Keeps bind_ok)

variable {σ φ α : Type}

/-! ## §1 — the text that is hashed. -/

/-- What `snapshot_hash` hashes. -/
def snapshotText (observations : List (Str × Option Bytes)) : Bytes :=
  Utf8.encode "jev-ignore-snapshot-v1".toList ++ [0] ++ observations.flatMap snapshotEntry

/-- Every length fits in the `u64` that it is written as. -/
def Addressable (observations : List (Str × Option Bytes)) : Prop :=
  ∀ r ∈ observations, utf8Len r.1 < UInt64.size ∧ bytesIn r.2 < UInt64.size

theorem length_beBytes (n : Nat) : (beBytes n).length = 8 := rfl

/-- Numbers with the same digits in a base agree up to them. -/
theorem mod_pow_eq_of_digits {base m n : Nat} : ∀ k, (∀ i < k, m / base ^ i % base = n / base ^ i % base) →
    m % base ^ k = n % base ^ k
  | 0, _ => by rw [Nat.pow_zero, Nat.mod_one, Nat.mod_one]
  | k + 1, h => by
      have ih := mod_pow_eq_of_digits k fun i hi => h i (Nat.lt_succ_of_lt hi)
      rw [Nat.mod_pow_succ, Nat.mod_pow_succ, ih, h k (Nat.lt_succ_self k)]

/-- A length is read back from its eight bytes. -/
theorem beBytes_injective {m n : Nat} (hm : m < UInt64.size) (hn : n < UInt64.size)
    (h : beBytes m = beBytes n) : m = n := by
  have hdigit : ∀ i < 8, m / 256 ^ i % 256 = n / 256 ^ i % 256 := by
    intro i hi
    have hmem : i ∈ (List.range 8).reverse := List.mem_reverse.2 (List.mem_range.2 hi)
    have hbyte := congrArg UInt8.toNat (List.map_inj_left.1 h i hmem)
    rwa [UInt8.toNat_ofNat', UInt8.toNat_ofNat', Nat.shiftRight_eq_div_pow, Nat.shiftRight_eq_div_pow,
      Nat.pow_mul] at hbyte
  have hsize : 256 ^ 8 = UInt64.size := by decide
  have hall : m % 256 ^ 8 = n % 256 ^ 8 := mod_pow_eq_of_digits 8 hdigit
  rwa [hsize, Nat.mod_eq_of_lt hm, Nat.mod_eq_of_lt hn] at hall

/-- Two texts that start with a length, a part of that length and a rest have the parts in common. -/
theorem counted_inj {m n : Nat} {a b rest rest' : Bytes} (hm : m < UInt64.size) (hn : n < UInt64.size)
    (ha : a.length = m) (hb : b.length = n) (h : beBytes m ++ a ++ rest = beBytes n ++ b ++ rest') :
    a = b ∧ rest = rest' := by
  rw [List.append_assoc, List.append_assoc] at h
  obtain ⟨hlength, htail⟩ := List.append_inj h (by rw [length_beBytes, length_beBytes])
  have hmn : m = n := beBytes_injective hm hn hlength
  exact List.append_inj htail (by rw [ha, hb, hmn])

/-- The part of a record behind its path. -/
def contentEntry : Option Bytes → Bytes
  | none => [0]
  | some bytes => 1 :: (beBytes bytes.length ++ bytes)

theorem snapshotEntry_eq (path : Str) (bytes : Option Bytes) :
    snapshotEntry (path, bytes) = beBytes (utf8Len path) ++ Utf8.encode path ++ contentEntry bytes := by
  cases bytes <;> simp [snapshotEntry, contentEntry]

theorem contentEntry_inj {bytes bytes' : Option Bytes} {rest rest' : Bytes}
    (hb : bytesIn bytes < UInt64.size) (hb' : bytesIn bytes' < UInt64.size)
    (h : contentEntry bytes ++ rest = contentEntry bytes' ++ rest') : bytes = bytes' ∧ rest = rest' := by
  cases bytes with
  | none =>
    cases bytes' with
    | none => exact ⟨rfl, (List.cons.inj h).2⟩
    | some content' => cases (List.cons.inj h).1
  | some content =>
    cases bytes' with
    | none => cases (List.cons.inj h).1
    | some content' =>
      obtain ⟨hcontent, hrest⟩ := counted_inj hb hb' rfl rfl (List.cons.inj h).2
      exact ⟨congrArg some hcontent, hrest⟩

/-- The record of a path with what stands behind it. -/
theorem snapshotEntry_inj {r r' : Str × Option Bytes} {rest rest' : Bytes}
    (hr : utf8Len r.1 < UInt64.size ∧ bytesIn r.2 < UInt64.size)
    (hr' : utf8Len r'.1 < UInt64.size ∧ bytesIn r'.2 < UInt64.size)
    (h : snapshotEntry r ++ rest = snapshotEntry r' ++ rest') : r = r' ∧ rest = rest' := by
  obtain ⟨path, bytes⟩ := r
  obtain ⟨path', bytes'⟩ := r'
  rw [snapshotEntry_eq, snapshotEntry_eq, List.append_assoc _ (contentEntry bytes),
    List.append_assoc _ (contentEntry bytes')] at h
  obtain ⟨hpath, htail⟩ := counted_inj hr.1 hr'.1 (Utf8.length_encode path) (Utf8.length_encode path') h
  obtain ⟨hbytes, hrest⟩ := contentEntry_inj hr.2 hr'.2 htail
  exact ⟨Prod.ext (Utf8.encode_injective hpath) hbytes, hrest⟩

theorem snapshotEntry_ne_nil (r : Str × Option Bytes) : snapshotEntry r ≠ [] := by
  obtain ⟨path, bytes⟩ := r
  cases bytes <;> simp [snapshotEntry]

/-- **The text that is hashed determines the records.** -/
theorem snapshotText_injective : ∀ {o o' : List (Str × Option Bytes)}, Addressable o → Addressable o' →
    snapshotText o = snapshotText o' → o = o' := by
  have hrecords : ∀ {o o' : List (Str × Option Bytes)}, Addressable o → Addressable o' →
      o.flatMap snapshotEntry = o'.flatMap snapshotEntry → o = o' := by
    intro o
    induction o with
    | nil =>
      intro o' _ _ h
      cases o' with
      | nil => rfl
      | cons r' rest' =>
        have := (List.append_eq_nil_iff.1 h.symm).1
        exact absurd this (snapshotEntry_ne_nil r')
    | cons r rest ih =>
      intro o' ho ho' h
      cases o' with
      | nil => exact absurd (List.append_eq_nil_iff.1 h).1 (snapshotEntry_ne_nil r)
      | cons r' rest' =>
        obtain ⟨hhead, htail⟩ := snapshotEntry_inj (ho r List.mem_cons_self) (ho' r' List.mem_cons_self) h
        rw [hhead, ih (fun x hx => ho x (List.mem_cons_of_mem _ hx))
          (fun x hx => ho' x (List.mem_cons_of_mem _ hx)) htail]
  intro o o' ho ho' h
  exact hrecords ho ho' (List.append_cancel_left h)

/-! ## §2 — what `enter` does to the log, the records and the rules. -/

/-- What a directory being listed puts in the log: its items, the checks of its entries, their content. -/
def Event.IsListing : Event φ → Prop
  | .entry .. | .checked .. | .searched _ => True
  | _ => False

/-- The log continues `before`, and nothing is listed. -/
def Unlisted (before : List (Event φ)) (w : World σ φ) : Prop :=
  ∃ added, w.log = before ++ added ∧ ∀ e ∈ added, ¬e.IsListing

section Unlisted

variable {before : List (Event φ)} {w w' : World σ φ}

theorem Unlisted.refl (w : World σ φ) : Unlisted w.log w :=
  ⟨[], (List.append_nil _).symm, fun _ h => absurd h List.not_mem_nil⟩

theorem Unlisted.trans (h : Unlisted before w) (h' : Unlisted w.log w') : Unlisted before w' := by
  obtain ⟨added, hw, hadded⟩ := h
  obtain ⟨added', hw', hadded'⟩ := h'
  refine ⟨added ++ added', by rw [hw', hw, List.append_assoc], fun e he => ?_⟩
  rcases List.mem_append.1 he with he | he
  · exact hadded e he
  · exact hadded' e he

theorem Unlisted.le (h : Unlisted before w) : before <+: w.log := by
  obtain ⟨added, hw, -⟩ := h
  rw [hw]
  exact List.prefix_append before added

/-- What was listed in the end was listed before. -/
theorem Unlisted.mem (h : Unlisted before w) {e : Event φ} (he : e ∈ w.log) (hlisting : e.IsListing) :
    e ∈ before := by
  obtain ⟨added, hw, hadded⟩ := h
  rw [hw] at he
  rcases List.mem_append.1 he with he | he
  · exact he
  · exact absurd hlisting (hadded e he)

theorem Grown.unlisted (h : Grown before w) : Unlisted before w := by
  obtain ⟨calls, hw, hcalls⟩ := h
  refine ⟨calls, hw, fun e he hlisting => ?_⟩
  have hcall := hcalls e he
  cases e
  case entry => exact hcall
  case checked => exact hcall
  case searched => exact hcall
  all_goals exact hlisting

end Unlisted

section Enter

variable {engine : Engine} {os : Os σ φ} {deadline : Nat} {before : List (Event φ)}

theorem unlisted_io {codes : List Code} {Q : α → Prop} {m : Io σ φ α} (h : Safe codes Q m) :
    Keeps (fun e : Entering σ φ => Unlisted before e.world) (Enter.io m) := by
  intro e he
  refine Triple.onPart (h e.world.log) (P := (· = e)) ?_ ?_ ?_ e rfl
  · rintro _ rfl
    exact Grown.refl _
  · rintro _ _ w rfl hw
    exact he.trans hw.1.unlisted
  · rintro _ _ w rfl hw
    exact he.trans hw.1.unlisted

theorem unlisted_addLines : ∀ (lines : List Str) (builder : Gitignore),
    Keeps (fun e : Entering σ φ => Unlisted before e.world) (addLines engine os deadline builder lines)
  | [], _ => Keeps.pure _
  | line :: lines, builder => by
      have htime : Safe [Code.deadline] (fun _ => True) (expired os deadline) := safe_expired (by decide)
      refine Keeps.bind (unlisted_io htime) fun _ => Keeps.bind (Keeps.modify fun e he => he) fun _ =>
        Keeps.get_bind fun s => ?_
      apply Triple.ite (fun _ => Keeps.fail _)
      intro _
      exact Triple.ite (fun _ => unlisted_addLines lines _) fun _ => Keeps.fail _

theorem unlisted_load (dir name : Str) :
    Keeps (fun e : Entering σ φ => Unlisted before e.world) (load engine os deadline dir name) := by
  refine Keeps.bind (unlisted_io (safe_policyBytes _)) fun bytes => Keeps.bind (Keeps.modify ?_) fun _ => ?_
  · intro e he
    refine he.trans ⟨[.policy (child dir name) bytes], rfl, fun x hx => ?_⟩
    rw [List.mem_singleton.1 hx]
    exact fun h => h
  · refine Keeps.bind ?_ fun builder => Keeps.bind (Keeps.modify fun e he => he) fun _ =>
      Triple.ite (fun _ => Keeps.pure _) fun _ => Keeps.fail _
    cases bytes with
    | none => exact Keeps.pure _
    | some content =>
      refine Keeps.bind (Keeps.modify fun e he => he) fun _ => Keeps.get_bind fun s =>
        Triple.ite (fun _ => Keeps.fail _) fun _ => ?_
      cases Utf8.decode content with
      | none => exact Keeps.fail _
      | some text => exact unlisted_addLines _ _

/-- `enter` lists nothing. -/
theorem unlisted_enter (dir : Str) :
    Keeps (fun e : Entering σ φ => Unlisted before e.world) (enter engine os deadline dir) := by
  refine Keeps.get_bind fun s => Triple.ite (fun _ => ?_) fun _ => Keeps.pure _
  refine Keeps.get_bind fun s => Triple.ite (fun _ => Keeps.fail _) fun _ => ?_
  exact Keeps.bind (unlisted_load dir GITIGNORE) fun _ => Keeps.bind (unlisted_load dir IGNORE) fun _ =>
    Keeps.modify fun e he => he

/-- No ignore file of the directory is on record. -/
def Unseen (dir : Str) (o : List (Str × Option Bytes)) : Prop :=
  ∀ r ∈ o, r.1 ≠ child dir GITIGNORE ∧ r.1 ≠ child dir IGNORE

/-- No path is on record twice. -/
def Functional (o : List (Str × Option Bytes)) : Prop := ∀ r ∈ o, ∀ r' ∈ o, r.1 = r'.1 → r = r'

theorem Functional.observe {o : List (Str × Option Bytes)} {path : Str} {bytes : Option Bytes}
    (h : Functional o) (hnew : ∀ r ∈ o, r.1 ≠ path) : Functional (Worker.observe path bytes o) := by
  intro r hr r' hr' heq
  rcases mem_of_mem_observe hr with rfl | hr
  · rcases mem_of_mem_observe hr' with rfl | hr'
    · rfl
    · exact absurd heq.symm (hnew r' hr')
  · rcases mem_of_mem_observe hr' with rfl | hr'
    · exact absurd heq (hnew r hr)
    · exact h r hr r' hr' heq

/-- The records that `enter` leaves: those before, with neither, the first or both of the directory's. -/
inductive Noted (dir : Str) (o : List (Str × Option Bytes)) : List (Str × Option Bytes) → Prop where
  | neither : Noted dir o o
  | first (gitignore : Option Bytes) : Noted dir o (observe (child dir GITIGNORE) gitignore o)
  | both (gitignore ignore : Option Bytes) :
      Noted dir o (observe (child dir IGNORE) ignore (observe (child dir GITIGNORE) gitignore o))

theorem Functional.noted {dir : Str} {o o' : List (Str × Option Bytes)} (h : Functional o)
    (hunseen : Unseen dir o) (hn : Noted dir o o') : Functional o' := by
  have hfirst : ∀ gitignore, Functional (Worker.observe (child dir GITIGNORE) gitignore o) :=
    fun _ => h.observe fun r hr => (hunseen r hr).1
  cases hn with
  | neither => exact h
  | first gitignore => exact hfirst gitignore
  | both gitignore ignore =>
    apply (hfirst gitignore).observe
    intro r hr
    rcases mem_of_mem_observe hr with rfl | hr
    · exact GITIGNORE_ne_IGNORE dir
    · exact (hunseen r hr).2

theorem Recorded.observations {path : Str} {bytes : Option Bytes} {s s' : Scope}
    (h : Recorded path bytes s s') : s'.observations = observe path bytes s.observations := by
  obtain ⟨s₁, hfed, rfl⟩ := h
  show observe path bytes s₁.observations = _
  rw [hfed.observations]

theorem Recorded.same {path : Str} {bytes : Option Bytes} {s s' : Scope} (h : Recorded path bytes s s') :
    s'.toFilter = s.toFilter ∧ s'.rules = s.rules := by
  obtain ⟨s₁, hfed, rfl⟩ := h
  exact ⟨hfed.filter, hfed.rules⟩

/-- What `enter` has done to a scope, whether it ended well or failed. -/
structure Visited (dir : Str) (s s' : Scope) : Prop where
  filter : s'.toFilter = s.toFilter
  /-- The rules of the other directories stay. -/
  rules : ∀ d, d ≠ dir → s'.rules d = s.rules d
  noted : Noted dir s.observations s'.observations

theorem Halfway.visited {dir : Str} {s s' : Scope} (h : Halfway dir s s') : Visited dir s s' := by
  rcases h with hspent | ⟨gitignore, s₁, hfirst, hspent | ⟨ignore, hsecond⟩⟩
  · refine ⟨hspent.filter, fun d _ => by rw [hspent.rules], ?_⟩
    rw [hspent.observations]
    exact .neither
  · refine ⟨hspent.filter.trans hfirst.same.1, fun d _ => by rw [hspent.rules, hfirst.same.2], ?_⟩
    rw [hspent.observations, hfirst.observations]
    exact .first gitignore
  · refine ⟨hsecond.same.1.trans hfirst.same.1, fun d _ => by rw [hsecond.same.2, hfirst.same.2], ?_⟩
    rw [hsecond.observations, hfirst.observations]
    exact .both gitignore ignore

theorem Completed.visited {dir : Str} {gitignore ignore : Option Bytes} {s s₁ s₂ s' : Scope}
    (h : Completed engine dir gitignore ignore s s₁ s₂ s') :
    Visited dir s s' ∧ (s'.rules dir).isSome = true := by
  have hrules : s'.rules = s₂.rules.insert dir ⟨gitignoreOf dir gitignore, gitignoreOf dir ignore⟩ := by
    rw [h.rules]
  refine ⟨⟨?_, fun d hd => ?_, ?_⟩, ?_⟩
  · rw [h.rules]
    exact h.second.same.1.trans h.first.same.1
  · rw [hrules, Rules.insert, if_neg hd, h.second.same.2, h.first.same.2]
  · have hobs : s'.observations = s₂.observations := by rw [h.rules]
    rw [hobs, h.second.observations, h.first.observations]
    exact .both gitignore ignore
  · rw [hrules, Rules.insert, if_pos rfl]
    rfl

/-- **What `enter` does to a scope**: its directory has rules where it ends well. -/
theorem visited_enter {dir : Str} {s : Scope} {w : World σ φ} {out : Except Code Unit} {e : Entering σ φ}
    (hrun : enter engine os deadline dir ⟨w, s⟩ = (out, e)) : Visited dir s e.scope ∧
      (out = .ok () → s.respectIgnore = true → (e.scope.rules dir).isSome = true) := by
  have hspent : ∀ {s'}, Spent s s' → Visited dir s s' := fun h => Halfway.visited (.inl h)
  have hspec := @enter_spec σ φ engine os deadline dir s ⟨w, s⟩ rfl
  rw [hrun] at hspec
  rcases out with code | ⟨⟩
  · refine ⟨?_, fun h => by cases h⟩
    rcases hspec with h | ⟨-, h⟩
    · exact hspent h
    · exact h.visited
  · rcases hspec with ⟨hoff, hsame⟩ | ⟨-, gitignore, ignore, s₁, s₂, hc⟩
    · change e.scope = s at hsame
      rw [hsame]
      refine ⟨hspent (Spent.refl s), fun _ hon => ?_⟩
      rw [hon] at hoff
      cases hoff
    · exact ⟨hc.visited.1, fun _ _ => hc.visited.2⟩

/-- The records are paid for by the directories that have one. -/
theorem PaidFor.without {dirs : List Str} {dir : Str} {s : Scope} (h : PaidFor engine dirs dirs s)
    (hunseen : Unseen dir s.observations) :
    PaidFor engine (dirs.filter (· ≠ dir)) (dirs.filter (· ≠ dir)) s where
  bytes := h.bytes
  lines := h.lines
  paths r hr := by
    obtain ⟨d, hd, hpath⟩ := h.paths r hr
    refine ⟨d, List.mem_filter.2 ⟨hd, decide_eq_true ?_⟩, hpath⟩
    rintro rfl
    rcases hpath with hpath | hpath
    · exact (hunseen r hr).1 hpath
    · exact (hunseen r hr).2 hpath
  rules d compiled hd := by
    obtain ⟨hmem, gitignore, ignore, hg, hrest⟩ := h.rules d compiled hd
    refine ⟨List.mem_filter.2 ⟨hmem, decide_eq_true ?_⟩, gitignore, ignore, hg, hrest⟩
    rintro rfl
    exact (hunseen _ hg).1 rfl

end Enter

/-! ## §3 — the records and the rules, along the walk. -/

section Walk

variable (engine : Engine) (filter : Filter)

/-- The scope was asked about a path, with these rules loaded or others, and allowed it. -/
def Granted (log : List (Event φ)) (path : Str) (directory : Bool) : Prop :=
  ∃ rules, Event.checked path directory rules ∈ log ∧
    filter.allowsUnder engine rules path directory = true

/-- The root, or an entry of a directory stream with a valid path. -/
def Met (log : List (Event φ)) (dir : Str) : Prop := dir = [] ∨ validPath dir = true ∧ Entered dir log

/-- What holds of the log and the scope with `ds` entered. -/
structure Coupled (ds : List Str) (log : List (Event φ)) (scope : Scope) : Prop where
  filter_eq : scope.toFilter = filter
  functional : Functional scope.observations
  paid : ∃ dirs, PaidFor engine dirs dirs scope ∧ ∀ d ∈ dirs, Met log d
  asked : ∀ dir ∈ ds, dir ≠ [] → Granted engine filter log dir true
  ruled : filter.respectIgnore = true → ∀ dir ∈ ds, ∀ d ∈ above dir, (scope.rules d).isSome = true
  /-- A directory is listed with its rules loaded. -/
  listed : ∀ dir item, Event.entry dir item ∈ log → (dir ≠ [] → Granted engine filter log dir true) ∧
    (filter.respectIgnore = true → (scope.rules dir).isSome = true)
  searched : ∀ path, Event.searched path ∈ log → Granted engine filter log path false
  /-- The rules that an entry was checked with are still there. -/
  checked : filter.respectIgnore = true → ∀ path directory rules, Event.checked path directory rules ∈ log →
    ∀ d ∈ containing path, (scope.rules d).isSome = true ∧ rules d = scope.rules d

/-- A directory that can be entered: it was met, and has no record yet; those above it have their rules. -/
structure Ready (dir : Str) (log : List (Event φ)) (scope : Scope) : Prop where
  met : Met log dir
  unseen : Unseen dir scope.observations
  asked : dir ≠ [] → Granted engine filter log dir true
  ruled : filter.respectIgnore = true → ∀ d ∈ above dir, d ≠ dir → (scope.rules d).isSome = true

variable {engine filter} {ds : List Str} {dir : Str} {log log' : List (Event φ)} {scope : Scope}

theorem Granted.mono {path : Str} {directory : Bool} (h : Granted engine filter log path directory)
    (hlog : log <+: log') : Granted engine filter log' path directory := by
  obtain ⟨rules, hmem, hallowed⟩ := h
  exact ⟨rules, hlog.subset hmem, hallowed⟩

theorem Met.mono (h : Met log dir) (hlog : log <+: log') : Met log' dir := by
  rcases h with h | ⟨hvalid, h⟩
  · exact .inl h
  · exact .inr ⟨hvalid, h.mono hlog⟩

theorem Ready.mono (h : Ready engine filter dir log scope) (hlog : log <+: log') :
    Ready engine filter dir log' scope :=
  ⟨h.met.mono hlog, h.unseen, fun hne => (h.asked hne).mono hlog, h.ruled⟩

namespace Coupled

theorem leave {d : Str} (h : Coupled engine filter (d :: ds) log scope) : Coupled engine filter ds log scope where
  filter_eq := h.filter_eq
  functional := h.functional
  paid := h.paid
  asked dir hd := h.asked dir (List.mem_cons_of_mem _ hd)
  ruled hon dir hd := h.ruled hon dir (List.mem_cons_of_mem _ hd)
  listed := h.listed
  searched := h.searched
  checked := h.checked

/-- Nothing is listed. -/
theorem later (h : Coupled engine filter ds log scope) {w : World σ φ} (hw : Unlisted log w) :
    Coupled engine filter ds w.log scope where
  filter_eq := h.filter_eq
  functional := h.functional
  paid := by
    obtain ⟨dirs, hpaid, hmet⟩ := h.paid
    exact ⟨dirs, hpaid, fun d hd => (hmet d hd).mono hw.le⟩
  asked dir hd hne := (h.asked dir hd hne).mono hw.le
  ruled := h.ruled
  listed dir item hmem := by
    obtain ⟨hasked, hrules⟩ := h.listed dir item (hw.mem hmem trivial)
    exact ⟨fun hne => (hasked hne).mono hw.le, hrules⟩
  searched path hmem := (h.searched path (hw.mem hmem trivial)).mono hw.le
  checked hon path directory rules hmem := h.checked hon path directory rules (hw.mem hmem trivial)

/-- One more event, with what has to hold of it. -/
theorem add (h : Coupled engine filter ds log scope) (e : Event φ)
    (hentry : ∀ dir item, e = .entry dir item → (dir ≠ [] → Granted engine filter log dir true) ∧
      (filter.respectIgnore = true → (scope.rules dir).isSome = true))
    (hsearched : ∀ path, e = .searched path → Granted engine filter log path false)
    (hchecked : filter.respectIgnore = true → ∀ path directory rules, e = .checked path directory rules →
      ∀ d ∈ containing path, (scope.rules d).isSome = true ∧ rules d = scope.rules d) :
    Coupled engine filter ds (log ++ [e]) scope where
  filter_eq := h.filter_eq
  functional := h.functional
  paid := by
    obtain ⟨dirs, hpaid, hmet⟩ := h.paid
    exact ⟨dirs, hpaid, fun d hd => (hmet d hd).mono (List.prefix_append _ _)⟩
  asked d hd hne := (h.asked d hd hne).mono (List.prefix_append _ _)
  ruled := h.ruled
  listed d item hmem := by
    have hlisted : (d ≠ [] → Granted engine filter log d true) ∧
        (filter.respectIgnore = true → (scope.rules d).isSome = true) := by
      rcases List.mem_append.1 hmem with hmem | hmem
      · exact h.listed d item hmem
      · exact hentry d item (List.mem_singleton.1 hmem).symm
    exact ⟨fun hne => (hlisted.1 hne).mono (List.prefix_append _ _), hlisted.2⟩
  searched path hmem := by
    rcases List.mem_append.1 hmem with hmem | hmem
    · exact (h.searched path hmem).mono (List.prefix_append _ _)
    · exact (hsearched path (List.mem_singleton.1 hmem).symm).mono (List.prefix_append _ _)
  checked hon path directory rules hmem := by
    rcases List.mem_append.1 hmem with hmem | hmem
    · exact h.checked hon path directory rules hmem
    · exact hchecked hon path directory rules (List.mem_singleton.1 hmem).symm

/-- An item of the innermost directory. -/
theorem entry (h : Coupled engine filter (dir :: ds) log scope) (item : Item) :
    Coupled engine filter (dir :: ds) (log ++ [.entry dir item]) scope := by
  apply h.add
  · rintro _ _ ⟨⟩
    refine ⟨h.asked dir List.mem_cons_self, fun hon => ?_⟩
    exact h.ruled hon dir List.mem_cons_self dir (mem_above_self dir)
  · intro path heq
    cases heq
  · intro _ path directory rules heq
    cases heq

/-- An entry of the innermost directory is checked with the rules loaded. -/
theorem check (h : Coupled engine filter (dir :: ds) log scope) {name : Str} (hname : '/' ∉ name)
    (directory : Bool) :
    Coupled engine filter (dir :: ds) (log ++ [.checked (child dir name) directory scope.rules]) scope := by
  apply h.add
  · intro d item heq
    cases heq
  · intro path heq
    cases heq
  · rintro hon _ _ _ ⟨⟩ d hd
    rw [containing_child hname] at hd
    exact ⟨h.ruled hon dir List.mem_cons_self d hd, rfl⟩

/-- A file in scope is searched. -/
theorem search (h : Coupled engine filter ds log scope) {path : Str}
    (hasked : Granted engine filter log path false) :
    Coupled engine filter ds (log ++ [.searched path]) scope := by
  apply h.add
  · intro d item heq
    cases heq
  · rintro _ ⟨⟩
    exact hasked
  · intro _ path directory rules heq
    cases heq

section Enter

variable {os : Os σ φ} {deadline : Nat} {w : World σ φ} {out : Except Code Unit} {e : Entering σ φ}

/-- A directory with rules has records. -/
theorem ne_of_isSome (h : Coupled engine filter ds log scope) (hunseen : Unseen dir scope.observations)
    {d : Str} (hd : (scope.rules d).isSome = true) : d ≠ dir := by
  rintro rfl
  obtain ⟨dirs, hpaid, -⟩ := h.paid
  obtain ⟨compiled, hcompiled⟩ := Option.isSome_iff_exists.1 hd
  obtain ⟨-, gitignore, ignore, hg, -⟩ := hpaid.rules d compiled hcompiled
  exact (hunseen _ hg).1 rfl

/-- **`enter` of a directory without a record keeps the rules of all others**, whether it ends well or
fails. -/
theorem kept (h : Coupled engine filter ds w.log scope) (hready : Ready engine filter dir w.log scope)
    (hrun : enter engine os deadline dir ⟨w, scope⟩ = (out, e)) :
    Coupled engine filter ds e.world.log e.scope := by
  have hvisited := (visited_enter hrun).1
  have hsame : ∀ d, (scope.rules d).isSome = true → e.scope.rules d = scope.rules d := fun d hd =>
    hvisited.rules d (h.ne_of_isSome hready.unseen hd)
  have hun : Unlisted w.log e.world := by
    have hkeeps : Exec.Keeps (fun e : Entering σ φ => Unlisted w.log e.world)
        (enter engine os deadline dir) := unlisted_enter dir
    have hrun' := hkeeps ⟨w, scope⟩ (Unlisted.refl w)
    rw [hrun] at hrun'
    cases out <;> exact hrun'
  have hlater := h.later hun
  obtain ⟨dirs, hpaid, hmet⟩ := h.paid
  refine ⟨hvisited.filter.trans h.filter_eq, h.functional.noted hready.unseen hvisited.noted, ?_,
    hlater.asked, fun hon dir' hdir' d hd => ?_, fun d item hmem => ?_, hlater.searched,
    fun hon path directory rules hmem d hd => ?_⟩
  · refine ⟨dir :: dirs.filter (· ≠ dir), (paidFor_enter (hpaid.without hready.unseen) ?_ hrun).1, ?_⟩
    · intro hmem
      exact of_decide_eq_true (List.mem_filter.1 hmem).2 rfl
    · intro d hd
      rcases List.mem_cons.1 hd with rfl | hd
      · exact hready.met.mono hun.le
      · exact (hmet d (List.mem_filter.1 hd).1).mono hun.le
  · have hsome := h.ruled hon dir' hdir' d hd
    rwa [hsame d hsome]
  · obtain ⟨hasked, hrules⟩ := hlater.listed d item hmem
    refine ⟨hasked, fun hon => ?_⟩
    rw [hsame d (hrules hon)]
    exact hrules hon
  · obtain ⟨hsome, heq⟩ := hlater.checked hon path directory rules hmem d hd
    rw [hsame d hsome]
    exact ⟨hsome, heq⟩

/-- A directory that is entered has its rules, with those of the directories above it. -/
theorem enter (h : Coupled engine filter ds w.log scope) (hready : Ready engine filter dir w.log scope)
    (hrun : Worker.enter engine os deadline dir ⟨w, scope⟩ = (.ok (), e)) :
    Coupled engine filter (dir :: ds) e.world.log e.scope := by
  have hkept := h.kept hready hrun
  obtain ⟨hvisited, hloaded⟩ := visited_enter hrun
  have hlog : w.log <+: e.world.log := by
    have henter : EnterSafe (Worker.enter engine os deadline dir : Enter σ φ Unit) := safe_enter dir
    have hgrown := henter w.log scope.toFilter ⟨w, scope⟩ ⟨Extended.refl w, rfl⟩
    rw [hrun] at hgrown
    exact hgrown.1.le
  refine ⟨hkept.filter_eq, hkept.functional, hkept.paid, fun d hd hne => ?_, fun hon dir' hdir' d hd => ?_,
    hkept.listed, hkept.searched, hkept.checked⟩
  · rcases List.mem_cons.1 hd with rfl | hd
    · exact (hready.asked hne).mono hlog
    · exact hkept.asked d hd hne
  · rcases List.mem_cons.1 hdir' with rfl | hdir'
    · by_cases heq : d = dir'
      · rw [heq]
        apply hloaded rfl
        rw [h.filter_eq]
        exact hon
      · have hsome := hready.ruled hon d hd heq
        rwa [hvisited.rules d heq]
    · exact hkept.ruled hon dir' hdir' d hd

end Enter

end Coupled

/-- A path that is met for the first time has no record. -/
theorem Coupled.unseen (h : Coupled engine filter ds log scope) {path : Str} (hvalid : validPath path = true)
    (hnew : ¬Entered path log) : Unseen path scope.observations := by
  obtain ⟨dirs, hpaid, hmet⟩ := h.paid
  have hother : ∀ d ∈ dirs, d ≠ path := by
    rintro d hd rfl
    rcases hmet d hd with rfl | ⟨-, hentered⟩
    · exact absurd hvalid (by decide)
    · exact hnew hentered
  intro r hr
  obtain ⟨d, hd, hpath⟩ := hpaid.paths r hr
  rcases hpath with hpath | hpath
  · rw [hpath]
    exact ⟨child_ne (hother d hd) slash_notMem_GITIGNORE slash_notMem_GITIGNORE,
      child_ne (hother d hd) slash_notMem_GITIGNORE slash_notMem_IGNORE⟩
  · rw [hpath]
    exact ⟨child_ne (hother d hd) slash_notMem_IGNORE slash_notMem_GITIGNORE,
      child_ne (hother d hd) slash_notMem_IGNORE slash_notMem_IGNORE⟩

/-- An entry from its name on. -/
structure Fresh (log : List (Event φ)) (scope : Scope) (path : Str) : Prop where
  entered : Entered path log
  unseen : Unseen path scope.observations

/-- An entry in scope; a directory can be entered. -/
structure Admitted (engine : Engine) (filter : Filter) (directory : Bool) (path : Str)
    (log : List (Event φ)) (scope : Scope) : Prop where
  asked : path ≠ [] → Granted engine filter log path directory
  ready : directory = true → Ready engine filter path log scope

theorem Admitted.mono {directory : Bool} {path : Str} (h : Admitted engine filter directory path log scope)
    (hlog : log <+: log') : Admitted engine filter directory path log' scope :=
  ⟨fun hne => (h.asked hne).mono hlog, fun hd => (h.ready hd).mono hlog⟩

/-- **That records and rules belong together is an invariant of the walk**, where no entry repeats. -/
def coupling (job : Job σ φ) (filter : Filter) : Invariant job where
  Inv ds _ s := Distinct s.world.log → Coupled job.engine filter ds s.world.log s.scope
  Named dir name s := '/' ∉ name ∧ (Distinct s.world.log → validPath (child dir name) = true →
    Fresh s.world.log s.scope (child dir name))
  Clear directory path s := Distinct s.world.log →
    Admitted job.engine filter directory path s.world.log s.scope
  spare h := h
  leave h hdistinct := (h hdistinct).leave
  called h hw hdistinct := (h (hdistinct.before hw.le)).later hw.unlisted
  named_called h hw := by
    refine ⟨h.1, fun hdistinct hvalid => ?_⟩
    have hnamed := h.2 (hdistinct.before hw.le) hvalid
    exact ⟨hnamed.entered.mono hw.le, hnamed.unseen⟩
  clear_called h hw hdistinct := (h (hdistinct.before hw.le)).mono hw.le
  entered {ds _} dir := by
    intro s hs
    have henter : EnterSafe (enter job.engine job.os job.deadline dir : Enter σ φ Unit) := safe_enter dir
    have hgrown := henter s.world.log s.scope.toFilter ⟨s.world, s.scope⟩ ⟨Extended.refl _, rfl⟩
    rcases hrun : enter job.engine job.os job.deadline dir ⟨s.world, s.scope⟩ with ⟨code | ⟨⟩, e⟩
    · rw [hrun] at hgrown
      rw [Work.entering, Exec.onPart_run, hrun]
      intro hdistinct
      have hbefore := hdistinct.before hgrown.1.1.le
      exact (hs.1 hbefore).kept ((hs.2 hbefore).ready rfl) hrun
    · rw [hrun] at hgrown
      rw [Work.entering, Exec.onPart_run, hrun]
      intro hdistinct
      have hbefore := hdistinct.before hgrown.1.le
      exact (hs.1 hbefore).enter ((hs.2 hbefore).ready rfl) hrun
  ended dir item _ h hdistinct := (h (hdistinct.before (List.prefix_append _ _))).entry item
  named n h hdistinct := (h (hdistinct.before (List.prefix_append _ _))).entry (.name n)
  named_name {_ _ s dir n name} h _ hname := by
    refine ⟨slash_notMem_name hname, fun hdistinct hvalid => ⟨⟨(dir, n), ?_, leadsTo_iff.2 ⟨name, hname, rfl⟩⟩, ?_⟩⟩
    · show (dir, n) ∈ namesOf (s.world.log ++ [.entry dir (.name n)])
      rw [namesOf_note]
      exact List.mem_append_right _ List.mem_cons_self
    · have hs := h (hdistinct.before (List.prefix_append _ _))
      exact hs.unseen hvalid (entered_new hname rfl (hdistinct.metOnce _))
  visited h _ := h
  named_visited h := h
  excluded h := h
  failed h _ := h
  tooDeep h := h
  checked directory h hname _ hdistinct := (h (hdistinct.before (List.prefix_append _ _))).check hname.1 directory
  clear_checked {ds _ s dir name directory} h hname hcandidate hallowed hdistinct := by
    have hlog : s.world.log <+: (s.note (.checked (child dir name) directory s.scope.rules)).world.log :=
      List.prefix_append _ _
    have hs := h (hdistinct.before hlog)
    have hnamed := hname.2 (hdistinct.before hlog) hcandidate.valid
    have hasked : Granted job.engine filter
        (s.note (.checked (child dir name) directory s.scope.rules)).world.log (child dir name) directory := by
      refine ⟨s.scope.rules, List.mem_append_right _ (List.mem_singleton_self _), ?_⟩
      rw [← hs.filter_eq]
      exact hallowed
    refine ⟨fun _ => hasked, fun hdirectory => ⟨.inr ⟨hcandidate.valid, hnamed.entered.mono hlog⟩, hnamed.unseen,
      fun _ => hdirectory ▸ hasked, fun hon d hd hne => ?_⟩⟩
    rw [above_of_ne (child_ne_nil hcandidate.valid), containing_child hname.1] at hd
    rcases List.mem_cons.1 hd with rfl | hd
    · exact absurd rfl hne
    · exact hs.ruled hon dir List.mem_cons_self d hd
  searched {_ _ s path _} h hclear hvalid _ hdistinct := by
    have hbefore := hdistinct.before (List.prefix_append s.world.log [.searched path])
    refine (h hbefore).search ((hclear hbefore).asked ?_)
    rintro rfl
    exact absurd hvalid (by decide)
  clear_searched h hdistinct := (h (hdistinct.before (List.prefix_append _ _))).mono (List.prefix_append _ _)
  found h _ _ _ _ _ _ _ _ _ _ := h
  clear_found _ h := h
  read h _ _ _ _ _ _ _ _ _ := h

end Walk

/-! ## §4 — a run of `search`. -/

/-- The end of a run of `search` that came to its walk: what it returned, and the state it left. -/
def Ends (engine : Engine) (os : Os σ φ) (root : φ) (r : Request) (out : Except Code Success)
    (s' : State σ φ) : Prop :=
  ∃ matcher scope started w, Scope.new engine r.scope = .ok scope ∧ w.log = [] ∧
    conclude { engine, os, root, request := r, deadline := started + r.deadlineMs * 1000000, matcher }
      started { world := w, scope, result := Success.empty r.id, usedBytes := 2048 } = (out, s')

section Run

variable {engine : Engine} {os : Os σ φ} {root : φ} {r : Request} {out : Except Code Success}
  {s' : State σ φ}

theorem search_ends {state : σ} {w' : World σ φ} (h : search engine os root r ⟨state, []⟩ = (out, w')) :
    (w'.log = [] ∧ ∃ code, out = .error code) ∨ ∃ s', Ends engine os root r out s' ∧ s'.world = w' := by
  rcases search_cases h with ⟨hcode, hlog⟩ | ⟨matcher, scope, started, w₁, s', hscope, hw₁, hrun, hw'⟩
  · exact .inl ⟨hlog, hcode⟩
  · exact .inr ⟨s', ⟨matcher, scope, started, w₁, hscope, hw₁, hrun⟩, hw'⟩

/-- The request's part of the scope, whatever became of the rest. -/
theorem coupled_start {job : Job σ φ} {input : ScopeInput} {scope : Scope}
    (h : Scope.new job.engine input = .ok scope) {w : World σ φ} (hw : w.log = []) :
    Coupled job.engine scope.toFilter [] w.log scope ∧ Ready job.engine scope.toFilter [] w.log scope := by
  obtain ⟨hobs, hrules⟩ := new_observations h
  rw [hw]
  constructor
  · refine ⟨rfl, ?_, ⟨[], paidFor_new h, fun d hd => absurd hd List.not_mem_nil⟩,
      fun d hd => absurd hd List.not_mem_nil, fun _ d hd => absurd hd List.not_mem_nil,
      fun d item hd => absurd hd List.not_mem_nil, fun path hd => absurd hd List.not_mem_nil,
      fun _ path directory rules hd => absurd hd List.not_mem_nil⟩
    rw [hobs]
    exact fun r hr => absurd hr List.not_mem_nil
  · refine ⟨.inl rfl, ?_, fun hne => absurd rfl hne, fun _ d hd hne => ?_⟩
    · rw [hobs]
      exact fun r hr => absurd hr List.not_mem_nil
    · rw [above_nil] at hd
      exact absurd (List.mem_singleton.1 hd) hne

/-- **Records and rules belong together in the end**, however the run ends. -/
theorem Ends.coupled (h : Ends engine os root r out s') (hos : os.Distinct) :
    ∃ scope, Scope.new engine r.scope = .ok scope ∧
      Coupled engine scope.toFilter [] s'.world.log s'.scope := by
  obtain ⟨matcher, scope, started, w, hscope, hw, hrun⟩ := h
  generalize started + r.deadlineMs * 1000000 = deadline at hrun
  obtain ⟨job, hjob⟩ : ∃ job : Job σ φ, job = { engine, os, root, request := r, deadline, matcher } :=
    ⟨_, rfl⟩
  rw [← hjob] at hrun
  have hengine : engine = job.engine := by rw [hjob]
  have hdistinct : Distinct s'.world.log := by
    have hyields := yields_conclude (hjob ▸ hos : job.os.Distinct) started w.log
      { world := w, scope, result := Success.empty r.id, usedBytes := 2048 } rfl
    rw [hrun] at hyields
    have hadded : Yielded (fun _ _ => True) w.log s' := by
      cases out <;> exact hyields
    obtain ⟨added, hlog, hadded, -⟩ := hadded
    rw [hlog, hw, List.nil_append]
    exact hadded
  subst hengine
  obtain ⟨hcoupled, hready⟩ := coupled_start hscope hw
  have hbehind := conclude_behind (coupling job scope.toFilter) started
    { world := w, scope, result := Success.empty r.id, usedBytes := 2048 }
    ⟨fun _ => hcoupled, fun _ => ⟨fun hne => absurd rfl hne, fun _ => hready⟩⟩
  rw [hrun] at hbehind
  have hend : Behind (coupling job scope.toFilter) s' := by
    cases out <;> exact hbehind
  obtain ⟨walked, hinv, hsame, hgrown⟩ := hend
  refine ⟨scope, hscope, ?_⟩
  rw [hsame]
  exact (hinv (hdistinct.before hgrown.le)).later hgrown.unlisted

/-- The snapshot that a success reports is that of the records in the end. Where it is complete, or the
success of a read, each of them was found again. -/
theorem Ends.verified {success : Success} (h : Ends engine os root r (.ok success) s') :
    success.policySnapshotHash = snapshotHash engine s'.scope.observations ∧
      (success.coverage = .complete ∨ r.read.isSome = true → ∃ walked verified,
        s'.world.log = walked ++ verified ∧ VerifyLog s'.scope.observations verified) := by
  obtain ⟨matcher, scope, started, w, -, -, hrun⟩ := h
  generalize started + r.deadlineMs * 1000000 = deadline at hrun
  obtain ⟨_, s₁, -, hrun⟩ := bind_ok hrun
  obtain ⟨_, s₂, h₂, hrun⟩ := bind_ok hrun
  obtain ⟨_, _, h₃, hrun⟩ := bind_ok hrun
  obtain ⟨hs₂, rfl⟩ := Prod.mk.inj h₃
  cases hs₂
  split at hrun
  case isTrue => cases hrun
  case isFalse hreasons =>
    split at hrun
    case isTrue => cases hrun
    case isFalse =>
      obtain ⟨ended, s₃, h₄, hrun⟩ := bind_ok hrun
      obtain ⟨hsuccess, rfl⟩ := Prod.mk.inj hrun
      obtain ⟨w₃, hw₃, rfl⟩ := Work.io_ok h₄
      have hresult := Except.ok.inj hsuccess
      rw [← hresult]
      refine ⟨rfl, fun hgood => ?_⟩
      have hsame : ∃ verified, VerifyLog s₁.scope.observations verified ∧
          s₂.world.log = s₁.world.log ++ verified ∧ s₂.scope = s₁.scope := by
        rcases hgood with hcomplete | hread
        · obtain ⟨verified, hverify, hlog, -, hscope⟩ := revalidate_log h₂ hcomplete
          exact ⟨verified, hverify, hlog, hscope⟩
        · rw [hread] at hreasons
          have hnone : s₂.result.reasons = [] := by simpa using hreasons
          obtain ⟨-, hscope, verified, hverify, hlog⟩ := revalidated_same (revalidate_ok h₂) hnone
          exact ⟨verified, hverify, hlog, hscope⟩
      obtain ⟨verified, hverify, hlog, hscope⟩ := hsame
      refine ⟨s₁.world.log, verified, ?_, ?_⟩
      · show w₃.log = _
        rw [instant_log hw₃, hlog]
      · show VerifyLog s₂.scope.observations verified
        rw [hscope]
        exact hverify

/-- The rules of a directory are compiled from the records of its two ignore files. -/
def RulesOf (o : List (Str × Option Bytes)) (dir : Str) (compiled : Option Compiled) : Prop :=
  ∃ gitignore ignore, (child dir GITIGNORE, gitignore) ∈ o ∧ (child dir IGNORE, ignore) ∈ o ∧
    compiled = some ⟨gitignoreOf dir gitignore, gitignoreOf dir ignore⟩

theorem Coupled.rulesOf {filter : Filter} {ds : List Str} {log : List (Event φ)} {scope : Scope}
    (h : Coupled engine filter ds log scope) {d : Str} (hd : (scope.rules d).isSome = true) :
    RulesOf scope.observations d (scope.rules d) := by
  obtain ⟨dirs, hpaid, -⟩ := h.paid
  obtain ⟨compiled, hcompiled⟩ := Option.isSome_iff_exists.1 hd
  obtain ⟨-, gitignore, ignore, hg, hi, -, -, heq⟩ := hpaid.rules d compiled hcompiled
  exact ⟨gitignore, ignore, hg, hi, by rw [hcompiled, heq]⟩

/-- The records of a directory determine its rules. -/
theorem RulesOf.unique {o : List (Str × Option Bytes)} (ho : Functional o) {dir : Str}
    {compiled compiled' : Option Compiled} (h : RulesOf o dir compiled) (h' : RulesOf o dir compiled') :
    compiled = compiled' := by
  obtain ⟨gitignore, ignore, hg, hi, rfl⟩ := h
  obtain ⟨gitignore', ignore', hg', hi', rfl⟩ := h'
  have hfirst : gitignore = gitignore' := congrArg Prod.snd (ho _ hg _ hg' rfl)
  have hsecond : ignore = ignore' := congrArg Prod.snd (ho _ hi _ hi' rfl)
  rw [hfirst, hsecond]

theorem findSome_congr {β γ : Type} {f g : β → Option γ} : ∀ {l : List β}, (∀ a ∈ l, f a = g a) →
    l.findSome? f = l.findSome? g
  | [], _ => rfl
  | a :: l, h => by
      rw [List.findSome?_cons, List.findSome?_cons, h a List.mem_cons_self,
        findSome_congr fun b hb => h b (List.mem_cons_of_mem _ hb)]

/-- A verdict depends on the rules of the directories above the path. -/
theorem allowsUnder_congr {filter : Filter} {rules rules' : Rules} {path : Str}
    (h : filter.respectIgnore = true → ∀ d ∈ containing path, rules d = rules' d) (directory : Bool) :
    filter.allowsUnder engine rules path directory = filter.allowsUnder engine rules' path directory := by
  by_cases hon : filter.respectIgnore = true
  · have hruling : ∀ kind, ∀ d ∈ containing path,
        ruling engine rules kind path directory d = ruling engine rules' kind path directory d := by
      intro kind d hd
      rw [ruling, ruling, h hon d hd]
    have hdecision : decision engine rules path directory = decision engine rules' path directory := by
      rw [decision, decision, findSome_congr (hruling (·.ignore)), findSome_congr (hruling (·.gitignore))]
    rw [Filter.allowsUnder, Filter.allowsUnder, hdecision]
  · rw [Filter.allowsUnder, Filter.allowsUnder, if_neg hon, if_neg hon]

theorem utf8Len_child_le (dir name : Str) : utf8Len (child dir name) ≤ utf8Len dir + 1 + utf8Len name := by
  rw [child]
  split
  · omega
  · have hslash : ('/' : Char).utf8Size = 1 := rfl
    rw [Utf16.utf8Len_append, Utf16.utf8Len_cons, hslash]
    omega

theorem le_total {f : Option Bytes → Nat} {x : Str × Option Bytes} : ∀ {o : List (Str × Option Bytes)},
    x ∈ o → f x.2 ≤ total f o
  | (p, b) :: rest, hx => by
      rw [total]
      rcases List.mem_cons.1 hx with rfl | hx
      · exact Nat.le_add_right _ _
      · have hle := le_total (f := f) hx
        omega

/-- What a run records is bounded far below the range of a length. -/
theorem Coupled.addressable {filter : Filter} {ds : List Str} {log : List (Event φ)} {scope : Scope}
    (h : Coupled engine filter ds log scope) : Addressable scope.observations := by
  obtain ⟨dirs, hpaid, hmet⟩ := h.paid
  intro x hx
  have hbytes : bytesIn x.2 ≤ 1048576 := (le_total hx).trans hpaid.bytes.2
  have hpath : utf8Len x.1 ≤ 4096 + 1 + 10 := by
    obtain ⟨d, hd, hname⟩ := hpaid.paths x hx
    have hdir : utf8Len d ≤ 4096 := by
      rcases hmet d hd with rfl | ⟨hvalid, -⟩
      · exact Nat.zero_le _
      · simp only [validPath, Bool.and_eq_true, decide_eq_true_eq] at hvalid
        exact hvalid.1.1.2
    have hgitignore : utf8Len GITIGNORE = 10 := by decide
    have hignore : utf8Len IGNORE = 7 := by decide
    rcases hname with hname | hname
    · have hle := utf8Len_child_le d GITIGNORE
      rw [hname]
      omega
    · have hle := utf8Len_child_le d IGNORE
      rw [hname]
      omega
  have hsize : UInt64.size = 18446744073709551616 := rfl
  rw [hsize]
  omega

/-- What the records of a run say of its checks, at the end of the run. -/
structure Identified (engine : Engine) (filter : Filter) (r : Request) (out : Except Code Success)
    (s' : State σ φ) : Prop where
  functional : Functional s'.scope.observations
  /-- Every entry was checked with rules compiled from the records, for its directory and all above it. -/
  checked : ∀ path directory rules, Event.checked path directory rules ∈ s'.world.log →
    ∀ d ∈ containing path, RulesOf s'.scope.observations d (rules d)
  verdict : ∀ path directory rules, Event.checked path directory rules ∈ s'.world.log →
    filter.allowsUnder engine rules path directory = s'.scope.allows engine path directory
  /-- No directory is listed, and no file searched, that was not checked and allowed. -/
  searched : ∀ path, Event.searched path ∈ s'.world.log → Granted engine filter s'.world.log path false
  listed : ∀ dir item, Event.entry dir item ∈ s'.world.log → dir ≠ [] →
    Granted engine filter s'.world.log dir true
  /-- No directory is listed whose ignore files could not be loaded. -/
  loaded : ∀ dir item, Event.entry dir item ∈ s'.world.log →
    RulesOf s'.scope.observations dir (s'.scope.rules dir)
  verified : ∀ success, out = .ok success →
    success.policySnapshotHash = snapshotHash engine s'.scope.observations ∧
      (success.coverage = .complete ∨ r.read.isSome = true → ∃ walked verified,
        s'.world.log = walked ++ verified ∧ VerifyLog s'.scope.observations verified)

theorem Coupled.verdict {filter : Filter} {log : List (Event φ)} {scope : Scope} {path : Str}
    {directory : Bool} {rules : Rules} (h : Coupled engine filter [] log scope)
    (hmem : Event.checked path directory rules ∈ log) :
    filter.allowsUnder engine rules path directory = scope.allows engine path directory := by
  rw [Scope.allows, h.filter_eq]
  apply allowsUnder_congr
  intro hon d hd
  exact (h.checked hon path directory rules hmem d hd).2

theorem Ends.identified (h : Ends engine os root r out s') (hos : os.Distinct)
    (hon : r.scope.respectIgnore = true) : ∃ scope, Scope.new engine r.scope = .ok scope ∧
      Identified engine scope.toFilter r out s' := by
  obtain ⟨scope, hscope, hcoupled⟩ := h.coupled hos
  have hon' : scope.respectIgnore = true := by
    rw [new_filter hscope]
    exact hon
  refine ⟨scope, hscope, hcoupled.functional, fun path directory rules hmem d hd => ?_,
    fun path directory rules => hcoupled.verdict, hcoupled.searched,
    fun dir item hmem => (hcoupled.listed dir item hmem).1, fun dir item hmem => ?_, fun success hout => ?_⟩
  · obtain ⟨hsome, heq⟩ := hcoupled.checked hon' path directory rules hmem d hd
    rw [heq]
    exact hcoupled.rulesOf hsome
  · exact hcoupled.rulesOf ((hcoupled.listed dir item hmem).2 hon')
  · subst hout
    exact h.verified

end Run

/-! ## §5 — two runs. -/

section Runs

variable {σ₁ φ₁ σ₂ φ₂ : Type} {engine : Engine} {os₁ : Os σ₁ φ₁} {os₂ : Os σ₂ φ₂} {root₁ : φ₁} {root₂ : φ₂}
  {r₁ r₂ : Request} {success₁ success₂ : Success} {s₁ : State σ₁ φ₁} {s₂ : State σ₂ φ₂}

/-- The digests of two texts do not collide. -/
def Distinguishes (sha256 : Bytes → Bytes) (text text' : Bytes) : Prop :=
  sha256 text = sha256 text' → text = text'

theorem hex_injective : Function.Injective hex := Json.hexDigits_injective

/-- Equal snapshots are snapshots of the same records. -/
theorem Ends.observations_eq (h₁ : Ends engine os₁ root₁ r₁ (.ok success₁) s₁) (hos₁ : os₁.Distinct)
    (h₂ : Ends engine os₂ root₂ r₂ (.ok success₂) s₂) (hos₂ : os₂.Distinct)
    (hhash : success₁.policySnapshotHash = success₂.policySnapshotHash)
    (hfree : Distinguishes engine.sha256 (snapshotText s₁.scope.observations)
      (snapshotText s₂.scope.observations)) : s₁.scope.observations = s₂.scope.observations := by
  obtain ⟨scope₁, -, hcoupled₁⟩ := h₁.coupled hos₁
  obtain ⟨scope₂, -, hcoupled₂⟩ := h₂.coupled hos₂
  apply snapshotText_injective hcoupled₁.addressable hcoupled₂.addressable
  apply hfree
  apply hex_injective
  calc hex (engine.sha256 (snapshotText s₁.scope.observations))
      = success₁.policySnapshotHash := h₁.verified.1.symm
    _ = success₂.policySnapshotHash := hhash
    _ = hex (engine.sha256 (snapshotText s₂.scope.observations)) := h₂.verified.1

/-- The same records give the same verdict on a path whose directories both runs entered. -/
theorem Ends.allows_eq {out₁ out₂ : Except Code Success} (h₁ : Ends engine os₁ root₁ r₁ out₁ s₁)
    (hos₁ : os₁.Distinct) (h₂ : Ends engine os₂ root₂ r₂ out₂ s₂) (hos₂ : os₂.Distinct)
    (hscope : r₁.scope = r₂.scope) (hobs : s₁.scope.observations = s₂.scope.observations) {path : Str}
    (hentered : r₁.scope.respectIgnore = true → ∀ d ∈ containing path,
      (s₁.scope.rules d).isSome = true ∧ (s₂.scope.rules d).isSome = true) (directory : Bool) :
    s₁.scope.allows engine path directory = s₂.scope.allows engine path directory := by
  obtain ⟨scope, hnew₁, hcoupled₁⟩ := h₁.coupled hos₁
  obtain ⟨scope₂, hnew₂, hcoupled₂⟩ := h₂.coupled hos₂
  rw [← hscope, hnew₁] at hnew₂
  cases hnew₂
  rw [Scope.allows, Scope.allows, hcoupled₁.filter_eq, hcoupled₂.filter_eq]
  apply allowsUnder_congr
  intro hon d hd
  rw [new_filter hnew₁] at hon
  obtain ⟨hsome₁, hsome₂⟩ := hentered hon d hd
  have hrules₂ := hcoupled₂.rulesOf hsome₂
  rw [← hobs] at hrules₂
  exact (hcoupled₁.rulesOf hsome₁).unique hcoupled₁.functional hrules₂

end Runs

/-- **The snapshot hash names the rules that were applied.** The text that is hashed determines the
records; whatever the system answers, as long as no directory stream repeats a name, each entry was
checked with rules compiled from the records, and the records of a complete result or a read were found
again; two complete results of one scope with one hash gave one verdict on every path whose directories
both entered. -/
theorem snapshot_identifies (engine : Engine) :
    (∀ o o', Addressable o → Addressable o' → snapshotText o = snapshotText o' → o = o') ∧
    (∀ (σ φ : Type) (os : Os σ φ) (root : φ) (r : Request) (state : σ) (out : Except Code Success)
      (w' : World σ φ), os.Distinct → r.scope.respectIgnore = true →
      search engine os root r ⟨state, []⟩ = (out, w') →
        (w'.log = [] ∧ ∃ code, out = .error code) ∨
          ∃ s' scope, Ends engine os root r out s' ∧ s'.world = w' ∧
            Scope.new engine r.scope = .ok scope ∧ Identified engine scope.toFilter r out s') ∧
    ∀ (σ₁ φ₁ σ₂ φ₂ : Type) (os₁ : Os σ₁ φ₁) (os₂ : Os σ₂ φ₂) (root₁ : φ₁) (root₂ : φ₂) (r₁ r₂ : Request)
      (success₁ success₂ : Success) (s₁ : State σ₁ φ₁) (s₂ : State σ₂ φ₂), os₁.Distinct → os₂.Distinct →
      r₁.scope = r₂.scope → Ends engine os₁ root₁ r₁ (.ok success₁) s₁ →
      Ends engine os₂ root₂ r₂ (.ok success₂) s₂ →
      success₁.policySnapshotHash = success₂.policySnapshotHash →
      Distinguishes engine.sha256 (snapshotText s₁.scope.observations)
        (snapshotText s₂.scope.observations) →
      ∀ path directory, (r₁.scope.respectIgnore = true → ∀ d ∈ containing path,
        (s₁.scope.rules d).isSome = true ∧ (s₂.scope.rules d).isSome = true) →
          s₁.scope.allows engine path directory = s₂.scope.allows engine path directory := by
  refine ⟨fun o o' => snapshotText_injective, ?_, ?_⟩
  · intro σ φ os root r state out w' hos hon h
    rcases search_ends h with hbefore | ⟨s', hends, hw'⟩
    · exact .inl hbefore
    · obtain ⟨scope, hscope, hidentified⟩ := hends.identified hos hon
      exact .inr ⟨s', scope, hends, hw', hscope, hidentified⟩
  · intro σ₁ φ₁ σ₂ φ₂ os₁ os₂ root₁ root₂ r₁ r₂ success₁ success₂ s₁ s₂ hos₁ hos₂ hscope h₁ h₂ hhash hfree
      path directory hentered
    have hobs := h₁.observations_eq hos₁ h₂ hos₂ hhash hfree
    exact h₁.allows_eq hos₁ h₂ hos₂ hscope hobs hentered directory

/-- Crates for which a line of an ignore file is the path it ignores. -/
def Engine.verbatim : Engine :=
  { Engine.plain with matched := fun g path _ => if path ∈ g.lines then .ignore else .none }

theorem slash_not_mem_gitignore : (0x2f : UInt8) ∉ Utf8.encode GITIGNORE := by decide

theorem slash_not_mem_x : (0x2f : UInt8) ∉ Utf8.encode ['x'] := by decide

/-- Two trees with the same ignore file and different files beside it. -/
def oneRuled : List (DirName × Node) :=
  [(.ofStr GITIGNORE slash_not_mem_gitignore, .file (Utf8.encode "x\n".toList)),
    (.ofStr ['a'] slash_not_mem_a, .file (Utf8.encode "xa\n".toList))]

def otherRuled : List (DirName × Node) :=
  [(.ofStr ['x'] slash_not_mem_x, .file (Utf8.encode "a\na\n".toList)),
    (.ofStr GITIGNORE slash_not_mem_gitignore, .file (Utf8.encode "x\n".toList))]

/-- Such a tree as a system whose every directory stream is that of the root. -/
def rootStream (entries : List (DirName × Node)) : Os Nat Node :=
  { (Node.dir entries).os with dir := fun _ s => (some (Stream.ofNames (entries.map (·.1))), s) }

theorem fresh_ofNames {σ : Type} : ∀ {names seen : List DirName}, names.Nodup → (∀ n ∈ names, n ∉ seen) →
    (Stream.ofNames names : Stream σ).Fresh seen
  | [], _, _, _ => trivial
  | n :: names, seen, hnodup, hseen => by
      obtain ⟨hnew, hnodup⟩ := List.nodup_cons.1 hnodup
      refine ⟨hseen n List.mem_cons_self, fun _ => fresh_ofNames hnodup fun m hm hmem => ?_⟩
      rcases List.mem_cons.1 hmem with rfl | hmem
      · exact hnew hm
      · exact hseen m (List.mem_cons_of_mem n hm) hmem

theorem distinct_rootStream {entries : List (DirName × Node)} (h : (entries.map (·.1)).Nodup) :
    (rootStream entries).Distinct := by
  intro fd s stream hstream
  obtain rfl := Option.some.inj hstream
  exact fresh_ofNames h fun _ _ => List.not_mem_nil

/-- The job of a search for `a` in it. -/
def ruledJob (entries : List (DirName × Node)) : Job Nat Node where
  engine := .verbatim
  os := rootStream entries
  root := .dir entries
  request := .literal ['a']
  deadline := 1000000
  matcher := literalMatches (Utf8.encode ['a']) 0 0

/-- The walk of a search for `a` in it, and what is behind the walk. -/
def ruledRun (entries : List (DirName × Node)) : Except Code Success × State Nat Node :=
  conclude (ruledJob entries) 0 oneFileStart

theorem ends_ruledRun {entries : List (DirName × Node)} {success : Success}
    (h : (ruledRun entries).1 = .ok success) :
    Ends Engine.verbatim (rootStream entries) (.dir entries) (.literal ['a']) (.ok success)
      (ruledRun entries).2 := by
  refine ⟨literalMatches (Utf8.encode ['a']) 0 0, oneFileStart.scope, 0, ⟨0, []⟩, rfl, rfl, ?_⟩
  rw [← h]
  rfl

/-- The two searches report one snapshot hash, that of `x` in the `.gitignore` of the root, and ignore
the same files. -/
theorem snapshot_identifies_sameRules :
    (∃ success filter, ∃ s' : State Nat Node, (search Engine.verbatim (rootStream oneRuled) (.dir oneRuled) (.literal ['a'])
        ⟨0, []⟩).1 = .ok success ∧ success.hits.length = 1 ∧
      Identified Engine.verbatim filter (.literal ['a']) (.ok success) s') ∧
    ((ruledRun oneRuled).1.map Success.policySnapshotHash
        = .ok "57ca7aaa88778332db6919ed015550f5b5ca115e81ce77fb35c25e663d102c80".toList ∧
      (ruledRun otherRuled).1.map Success.policySnapshotHash
        = .ok "57ca7aaa88778332db6919ed015550f5b5ca115e81ce77fb35c25e663d102c80".toList) ∧
    (ruledRun oneRuled).2.scope.allows Engine.verbatim ['x'] false
      = (ruledRun otherRuled).2.scope.allows Engine.verbatim ['x'] false := by
  obtain ⟨-, hone, htwo⟩ := snapshot_identifies Engine.verbatim
  have hdistinct : (rootStream oneRuled).Distinct := distinct_rootStream (by decide)
  have hdistinct' : (rootStream otherRuled).Distinct := distinct_rootStream (by decide)
  have hhashes : (ruledRun oneRuled).1.map Success.policySnapshotHash
        = .ok "57ca7aaa88778332db6919ed015550f5b5ca115e81ce77fb35c25e663d102c80".toList ∧
      (ruledRun otherRuled).1.map Success.policySnapshotHash
        = .ok "57ca7aaa88778332db6919ed015550f5b5ca115e81ce77fb35c25e663d102c80".toList := by
    decide +kernel
  refine ⟨?_, hhashes, ?_⟩
  · have hfound : (search Engine.verbatim (rootStream oneRuled) (.dir oneRuled) (.literal ['a'])
        ⟨0, []⟩).1.toOption.map (·.hits.length) = some 1 := by decide +kernel
    rcases hrun : search Engine.verbatim (rootStream oneRuled) (.dir oneRuled) (.literal ['a']) ⟨0, []⟩
      with ⟨code | success, w'⟩
    · rw [hrun] at hfound
      cases hfound
    · rw [hrun] at hfound
      rcases hone _ _ _ _ _ _ _ _ hdistinct rfl hrun with ⟨-, code, hcode⟩ | ⟨s', scope, -, -, -, hid⟩
      · cases hcode
      · exact ⟨success, _, s', rfl, Option.some.inj hfound, hid⟩
  · have hobservations : (ruledRun oneRuled).2.scope.observations = (ruledRun otherRuled).2.scope.observations := by
      decide +kernel
    have hloaded : ((ruledRun oneRuled).2.scope.rules []).isSome = true ∧
        ((ruledRun otherRuled).2.scope.rules []).isSome = true := by decide +kernel
    obtain ⟨hhash, hhash'⟩ := hhashes
    cases h : (ruledRun oneRuled).1 with
    | error code =>
        rw [h] at hhash
        cases hhash
    | ok success =>
        cases h' : (ruledRun otherRuled).1 with
        | error code =>
            rw [h'] at hhash'
            cases hhash'
        | ok success' =>
            rw [h] at hhash
            rw [h'] at hhash'
            apply htwo _ _ _ _ _ _ _ _ _ _ success success' _ _ hdistinct hdistinct' rfl (ends_ruledRun h)
              (ends_ruledRun h') (Except.ok.inj (hhash.trans hhash'.symm))
            · intro hdigest
              rw [hobservations]
            · intro hon d hd
              have hroot : d = [] := by
                revert hd d
                decide
              rw [hroot]
              exact hloaded

end JevGrep.Worker
