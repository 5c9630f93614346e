/-
# `JevGrep.Lib.Regex` — regular expressions with an ordered backtracking semantics.

An expression is read on a text `s` at a position `i` and yields the LIST of positions at which a
match may end, in preference order: the head is the match a leftmost-first engine reports, and the
members are what a membership question (`regex.test`) ranges over. One definition (`Rx.ends`)
therefore serves both an ECMAScript `test` and a find-iterator over a buffer.

* §1 the expressions and `Rx.ends`;
* §2 membership rules, one per constructor, with the two star rules (`mem_ends_star` for any body,
  `mem_ends_star_one` for a repeated symbol class);
* §3 searching: the leftmost match at or after a position, and the iteration over all matches;
* §4 line locality: an expression whose assertions look only at one line, and which never consumes
  the terminator, reads a line inside a buffer exactly as it reads that line alone (`ends_line`), so
  the matches of the buffer are those of its lines (`findIter_eq_linewise`).

The module names no program; the alphabet `α` and the terminator `t : α` are arbitrary.
-/
import JevGrep.Lib.Split
import Mathlib.Data.Nat.Init
import Mathlib.Logic.Relation
import Mathlib.Tactic.Common

namespace JevGrep.Lib.Regex

open JevGrep.Lib.Split

variable {α : Type*}

/-! ## §1 — expressions and their ordered ends. -/

/-- Expressions over an alphabet `α`. An assertion is any predicate of the text and the position. -/
inductive Rx (α : Type*) where
  | look (holds : List α → Nat → Bool)
  | one (accepts : α → Bool)
  | cat (first second : Rx α)
  | alt (left right : Rx α)
  | star (greedy : Bool) (body : Rx α)
  | notAhead (body : Rx α)

namespace Rx

/-- Iteration of a body: an iteration that makes no progress ends the loop. The fuel is the number
of positions still ahead, and a progressing iteration spends at least one. -/
def iter (greedy : Bool) (step : Nat → List Nat) : Nat → Nat → List Nat
  | 0, i => [i]
  | fuel + 1, i =>
      let again := (step i).flatMap fun j => if i < j then iter greedy step fuel j else [j]
      if greedy then again ++ [i] else i :: again

/-- The ends of the matches of an expression that start at `i`, most preferred first. -/
def ends : Rx α → List α → Nat → List Nat
  | look holds, s, i => if holds s i then [i] else []
  | one accepts, s, i => match s[i]? with
      | some c => if accepts c then [i + 1] else []
      | none => []
  | cat a b, s, i => (ends a s i).flatMap (ends b s)
  | alt a b, s, i => ends a s i ++ ends b s i
  | star greedy a, s, i => iter greedy (ends a s) (s.length + 1 - i) i
  | notAhead a, s, i => if (ends a s i).isEmpty then [i] else []

/-- One or more repetitions. -/
def plus (greedy : Bool) (a : Rx α) : Rx α := cat a (star greedy a)

/-- `regex.test`: some position of the text starts a match. -/
def test (r : Rx α) (s : List α) : Bool :=
  (List.range (s.length + 1)).any fun i => !(ends r s i).isEmpty

/-! ## §2 — membership rules. -/

variable {s : List α} {i j : Nat}

theorem ends_cat (a b : Rx α) (s : List α) (i : Nat) :
    ends (cat a b) s i = (ends a s i).flatMap (ends b s) := rfl

theorem ends_alt (a b : Rx α) (s : List α) (i : Nat) : ends (alt a b) s i = ends a s i ++ ends b s i := rfl

theorem ends_notAhead (a : Rx α) (s : List α) (i : Nat) :
    ends (notAhead a) s i = if (ends a s i).isEmpty then [i] else [] := rfl

theorem iter_succ (greedy : Bool) (step : Nat → List Nat) (fuel i : Nat) :
    iter greedy step (fuel + 1) i =
      if greedy then
        ((step i).flatMap fun j => if i < j then iter greedy step fuel j else [j]) ++ [i]
      else i :: (step i).flatMap fun j => if i < j then iter greedy step fuel j else [j] := rfl

theorem mem_ends_look {holds : List α → Nat → Bool} :
    j ∈ ends (look holds) s i ↔ j = i ∧ holds s i = true := by
  show j ∈ (if holds s i then [i] else []) ↔ _
  by_cases h : holds s i <;> simp [h]

theorem mem_ends_one {accepts : α → Bool} :
    j ∈ ends (one accepts) s i ↔ j = i + 1 ∧ ∃ c, s[i]? = some c ∧ accepts c = true := by
  show j ∈ (match s[i]? with
    | some c => if accepts c then [i + 1] else []
    | none => []) ↔ _
  cases s[i]? with
  | none => simp
  | some c => by_cases h : accepts c <;> simp [h]

theorem mem_ends_cat {a b : Rx α} :
    j ∈ ends (cat a b) s i ↔ ∃ k, k ∈ ends a s i ∧ j ∈ ends b s k := by
  rw [ends_cat, List.mem_flatMap]

theorem mem_ends_alt {a b : Rx α} :
    j ∈ ends (alt a b) s i ↔ j ∈ ends a s i ∨ j ∈ ends b s i := by
  rw [ends_alt, List.mem_append]

theorem mem_ends_notAhead {a : Rx α} :
    j ∈ ends (notAhead a) s i ↔ j = i ∧ ∀ k, k ∉ ends a s i := by
  rw [ends_notAhead]
  cases h : ends a s i with
  | nil => simp
  | cons k ks =>
      simp only [List.isEmpty_cons, Bool.false_eq_true, if_false, List.not_mem_nil,
        false_iff, not_and, not_forall, not_not]
      exact fun _ => ⟨k, List.mem_cons_self⟩

/-- A match neither moves backwards nor leaves the text. -/
theorem ends_bounds (r : Rx α) (hi : i ≤ s.length) :
    ∀ j ∈ ends r s i, i ≤ j ∧ j ≤ s.length := by
  induction r generalizing i with
  | look holds =>
      intro j hj
      obtain ⟨rfl, -⟩ := mem_ends_look.mp hj
      exact ⟨Nat.le_refl _, hi⟩
  | one accepts =>
      intro j hj
      obtain ⟨rfl, c, hc, -⟩ := mem_ends_one.mp hj
      exact ⟨Nat.le_succ _, (List.getElem?_eq_some_iff.mp hc).1⟩
  | cat a b iha ihb =>
      intro j hj
      obtain ⟨k, hk, hj⟩ := mem_ends_cat.mp hj
      have hk' := iha hi k hk
      have hj' := ihb hk'.2 j hj
      exact ⟨Nat.le_trans hk'.1 hj'.1, hj'.2⟩
  | alt a b iha ihb =>
      intro j hj
      rcases mem_ends_alt.mp hj with hj | hj
      · exact iha hi j hj
      · exact ihb hi j hj
  | star greedy a ih =>
      suffices h : ∀ fuel i, i ≤ s.length → ∀ j ∈ iter greedy (ends a s) fuel i,
          i ≤ j ∧ j ≤ s.length from h (s.length + 1 - i) i hi
      intro fuel
      induction fuel with
      | zero =>
          intro i hi j hj
          obtain rfl : j = i := List.mem_singleton.1 hj
          exact ⟨Nat.le_refl _, hi⟩
      | succ fuel ihf =>
          intro i hi j hj
          have hcases : j = i ∨ ∃ k ∈ ends a s i,
              j ∈ (if i < k then iter greedy (ends a s) fuel k else [k]) := by
            rw [iter_succ] at hj
            cases greedy <;> simpa [List.mem_flatMap, or_comm] using hj
          rcases hcases with rfl | ⟨k, hk, hj⟩
          · exact ⟨Nat.le_refl _, hi⟩
          · have hk' := ih hi k hk
            split at hj
            · have hj' := ihf k hk'.2 j hj
              exact ⟨Nat.le_trans hk'.1 hj'.1, hj'.2⟩
            · obtain rfl : j = k := by simpa using hj
              exact hk'
  | notAhead a _ =>
      intro j hj
      obtain ⟨rfl, -⟩ := mem_ends_notAhead.mp hj
      exact ⟨Nat.le_refl _, hi⟩

/-- Membership in an iteration, unfolded once; the order of the two alternatives does not matter. -/
theorem mem_iter_succ {greedy : Bool} {step : Nat → List Nat} {fuel : Nat} :
    j ∈ iter greedy step (fuel + 1) i ↔
      j = i ∨ ∃ k ∈ step i, j ∈ (if i < k then iter greedy step fuel k else [k]) := by
  rw [iter_succ]
  cases greedy <;> simp [List.mem_flatMap, or_comm]

/-- **The star rule.** With enough fuel the ends of an iteration are the positions reachable by
finitely many matches of the body. -/
theorem mem_ends_star {greedy : Bool} {a : Rx α} (hi : i ≤ s.length) :
    j ∈ ends (star greedy a) s i ↔ Relation.ReflTransGen (fun x y => y ∈ ends a s x) i j := by
  suffices h : ∀ fuel i, i ≤ s.length → s.length + 1 - i ≤ fuel →
      (j ∈ iter greedy (ends a s) fuel i ↔
        Relation.ReflTransGen (fun x y => y ∈ ends a s x) i j) from h _ _ hi (Nat.le_refl _)
  intro fuel
  induction fuel with
  | zero => intro i hi hf; omega
  | succ fuel ihf =>
      intro i hi hf
      rw [mem_iter_succ]
      constructor
      · rintro (rfl | ⟨k, hk, hj⟩)
        · exact .refl
        · have hb := ends_bounds a hi k hk
          split at hj
          · exact .head hk ((ihf k hb.2 (by omega)).mp hj)
          · obtain rfl : j = k := by simpa using hj
            exact .single hk
      · intro h
        -- steps that stay at `i` can be dropped, so the first progressing step is the one to take
        induction h using Relation.ReflTransGen.head_induction_on with
        | refl => exact .inl rfl
        | @head x k hk hrest ih =>
            have hb := ends_bounds a hi k hk
            by_cases hlt : x < k
            · exact .inr ⟨k, hk, by rw [if_pos hlt]; exact (ihf k hb.2 (by omega)).mpr hrest⟩
            · obtain rfl : k = x := by omega
              exact ih hi hf

/-- **The class star rule.** A repeated symbol class stretches over any run of accepted symbols. -/
theorem mem_ends_star_one {greedy : Bool} {accepts : α → Bool} (hi : i ≤ s.length) :
    j ∈ ends (star greedy (one accepts)) s i ↔
      i ≤ j ∧ j ≤ s.length ∧ ∀ k, i ≤ k → k < j → ∃ c, s[k]? = some c ∧ accepts c = true := by
  rw [mem_ends_star hi]
  constructor
  · intro h
    induction h with
    | refl => exact ⟨Nat.le_refl _, hi, fun k h1 h2 => absurd h1 (by omega)⟩
    | @tail x y _ hstep ih =>
        obtain ⟨rfl, c, hc, hacc⟩ := mem_ends_one.mp hstep
        refine ⟨by omega, (List.getElem?_eq_some_iff.mp hc).1, fun k h1 h2 => ?_⟩
        rcases Nat.lt_succ_iff_lt_or_eq.mp h2 with h | rfl
        · exact ih.2.2 k h1 h
        · exact ⟨c, hc, hacc⟩
  · rintro ⟨hij, -, hall⟩
    induction j, hij using Nat.le_induction with
    | base => exact .refl
    | succ j hij ih =>
        obtain ⟨c, hc, hacc⟩ := hall j hij (Nat.lt_succ_self _)
        exact (ih fun k h1 h2 => hall k h1 (by omega)).tail (mem_ends_one.mpr ⟨rfl, c, hc, hacc⟩)

theorem test_iff {r : Rx α} : test r s = true ↔ ∃ i ≤ s.length, ∃ j, j ∈ ends r s i := by
  simp only [test, List.any_eq_true, List.mem_range, Nat.lt_succ_iff, Bool.not_eq_true',
    List.isEmpty_eq_false_iff_exists_mem]

/-! ## §3 — searching: the leftmost match, and the iteration over all matches. -/

/-- The match a leftmost-first engine reports at or after `start`. -/
def findAt (r : Rx α) (s : List α) (start : Nat) : Option (Nat × Nat) :=
  (List.range' start (s.length + 1 - start)).findSome? fun i => (ends r s i).head?.map (i, ·)

/-- The find-iterator's loop: a search starts where the last match ended, one further after an empty
match, and an empty match right after another match is dropped. The fuel bounds the starts ahead. -/
def findIterFrom (r : Rx α) (s : List α) : Nat → Nat → Option Nat → List (Nat × Nat)
  | 0, _, _ => []
  | fuel + 1, lastEnd, lastMatch =>
      match findAt r s lastEnd with
      | none => []
      | some (i, j) =>
          if i = j then
            if lastMatch = some j then findIterFrom r s fuel (j + 1) lastMatch
            else (i, j) :: findIterFrom r s fuel (j + 1) (some j)
          else (i, j) :: findIterFrom r s fuel j (some j)

/-- All matches of an expression in a text, as the find-iterator reports them. -/
def findIter (r : Rx α) (s : List α) : List (Nat × Nat) := findIterFrom r s (s.length + 2) 0 none

theorem findAt_eq_some {r : Rx α} {start : Nat} (h : findAt r s start = some (i, j)) :
    start ≤ i ∧ i ≤ s.length ∧ j ∈ ends r s i := by
  obtain ⟨k, hk, hkj⟩ := List.exists_of_findSome?_eq_some h
  rw [List.mem_range'_1] at hk
  cases he : (ends r s k).head? with
  | none => simp [he] at hkj
  | some e =>
      simp only [he, Option.map_some, Option.some.injEq, Prod.mk.injEq] at hkj
      obtain ⟨rfl, rfl⟩ := hkj
      exact ⟨hk.1, by omega, List.mem_of_mem_head? he⟩

/-- A reported match is well placed, and the iteration resumes strictly further on. -/
theorem findAt_bounds {r : Rx α} {start : Nat} (h : findAt r s start = some (i, j)) :
    start ≤ i ∧ i ≤ j ∧ j ≤ s.length := by
  obtain ⟨h1, h2, h3⟩ := findAt_eq_some h
  have hb := ends_bounds r h2 j h3
  exact ⟨h1, hb.1, hb.2⟩

/-- Every reported match starts at or after the first one. -/
theorem first_le_of_mem_findIterFrom {r : Rx α} {fuel start : Nat} {lm : Option Nat}
    {m : Nat × Nat} (h : m ∈ findIterFrom r s fuel start lm) :
    ∃ i j, findAt r s start = some (i, j) ∧ i ≤ m.1 := by
  induction fuel generalizing start lm with
  | zero => simp [findIterFrom] at h
  | succ fuel ih =>
      rw [findIterFrom] at h
      cases hf : findAt r s start with
      | none => simp [hf] at h
      | some ij =>
          obtain ⟨i, j⟩ := ij
          have hb := findAt_bounds hf
          refine ⟨i, j, rfl, ?_⟩
          have later : ∀ {start' lm'}, j ≤ start' → m ∈ findIterFrom r s fuel start' lm' →
              i ≤ m.1 := by
            intro start' lm' hle hm
            obtain ⟨i', j', hf', hi'⟩ := ih hm
            have := (findAt_bounds hf').1
            omega
          simp only [hf] at h
          split at h
          · split at h
            · exact later (Nat.le_succ j) h
            · rcases List.mem_cons.mp h with rfl | h
              · exact Nat.le_refl _
              · exact later (Nat.le_succ j) h
          · rcases List.mem_cons.mp h with rfl | h
            · exact Nat.le_refl _
            · exact later (Nat.le_refl j) h

/-- Every reported match starts inside the text or at its end. -/
theorem le_length_of_mem_findIterFrom {r : Rx α} {fuel start : Nat} {lm : Option Nat}
    {m : Nat × Nat} (h : m ∈ findIterFrom r s fuel start lm) : m.1 ≤ s.length := by
  induction fuel generalizing start lm with
  | zero => simp [findIterFrom] at h
  | succ fuel ih =>
      rw [findIterFrom] at h
      split at h
      · simp at h
      · rename_i i j hf
        have hb := findAt_bounds hf
        split at h
        · split at h
          · exact ih h
          · rcases List.mem_cons.mp h with rfl | h
            · exact Nat.le_trans hb.2.1 hb.2.2
            · exact ih h
        · rcases List.mem_cons.mp h with rfl | h
          · exact Nat.le_trans hb.2.1 hb.2.2
          · exact ih h

/-- Fuel beyond the starts still ahead changes nothing, and neither does a last match that lies
before every start still ahead. -/
theorem findIterFrom_congr {r : Rx α} : ∀ {fuel fuel' a b : Nat} {lm lm' : Option Nat},
    findAt r s a = findAt r s b → s.length + 1 < fuel + a → s.length + 1 < fuel' + b →
    (lm = lm' ∨ ∀ i j, findAt r s a = some (i, j) → lm ≠ some j ∧ lm' ≠ some j) →
    findIterFrom r s fuel a lm = findIterFrom r s fuel' b lm' := by
  intro fuel
  induction fuel with
  | zero =>
      intro fuel' a b lm lm' hab hf hf' _
      have hnone : findAt r s a = none := by
        rw [findAt, show s.length + 1 - a = 0 by omega]
        rfl
      cases fuel' with
      | zero => rfl
      | succ n => simp [findIterFrom, ← hab, hnone]
  | succ fuel ih =>
      intro fuel' a b lm lm' hab hf hf' hlm
      cases fuel' with
      | zero =>
          have hnone : findAt r s b = none := by
            rw [findAt, show s.length + 1 - b = 0 by omega]
            rfl
          simp [findIterFrom, hab, hnone]
      | succ fuel' =>
          rw [findIterFrom, findIterFrom, ← hab]
          cases hfa : findAt r s a with
          | none => rfl
          | some ij =>
              obtain ⟨i, j⟩ := ij
              have ha := findAt_bounds hfa
              have hb := findAt_bounds (hab ▸ hfa)
              have hiff : lm = some j ↔ lm' = some j := by
                rcases hlm with rfl | h
                · rfl
                · have := h i j hfa
                  exact ⟨fun e => absurd e this.1, fun e => absurd e this.2⟩
              by_cases hij : i = j
              · by_cases hl : lm = some j
                · simp only [hij, if_pos hl, if_pos (hiff.mp hl), if_true]
                  refine ih rfl (by omega) (by omega) (.inl ?_)
                  rw [hl, hiff.mp hl]
                · simp only [hij, if_neg hl, if_neg (fun e => hl (hiff.mpr e)), if_true]
                  exact congrArg _ (ih rfl (by omega) (by omega) (.inl rfl))
              · simp only [if_neg hij]
                exact congrArg _ (ih rfl (by omega) (by omega) (.inl rfl))

/-! ## §4 — line locality. -/

/-- `content ++ tail` is a line of the text `pre ++ (content ++ tail) ++ post`: it starts the text or
follows a terminator, holds no terminator itself, and ends in one or ends the text. -/
structure LineAt (t : α) (pre content tail post : List α) : Prop where
  start : pre = [] ∨ pre.getLast? = some t
  clean : t ∉ content
  stop : tail = [t] ∨ (tail = [] ∧ post = [])

/-- An assertion that looks only at the line its position is on. -/
def LocalLook (t : α) (holds : List α → Nat → Bool) : Prop :=
  ∀ pre content tail post, LineAt t pre content tail post → ∀ i ≤ content.length,
    holds (pre ++ (content ++ tail) ++ post) (pre.length + i) = holds (content ++ tail) i

/-- Every assertion is line-local and the terminator is never consumed. -/
def LineLocal (t : α) : Rx α → Prop
  | look holds => LocalLook t holds
  | one accepts => accepts t = false
  | cat a b => LineLocal t a ∧ LineLocal t b
  | alt a b => LineLocal t a ∧ LineLocal t b
  | star _ a => LineLocal t a
  | notAhead a => LineLocal t a

section Line

variable {t : α} {pre content tail post : List α}

/-- The buffer read at a position of the line is the line read there. -/
theorem LineAt.getElem? (h : LineAt t pre content tail post) (hi : i ≤ content.length) :
    (pre ++ (content ++ tail) ++ post)[pre.length + i]? = (content ++ tail)[i]? := by
  rw [List.append_assoc, List.getElem?_append_right (by omega), Nat.add_sub_cancel_left]
  rcases h.stop with rfl | ⟨rfl, rfl⟩
  · rw [List.getElem?_append_left (by simp; omega)]
  · rw [List.append_nil]

/-- On a line the terminator stands only at the end. -/
theorem LineAt.lt_of_getElem? (h : LineAt t pre content tail post) {c : α}
    (hi : i ≤ content.length) (hc : (content ++ tail)[i]? = some c) (hne : c ≠ t) :
    i < content.length := by
  rcases Nat.lt_or_ge i content.length with hlt | hge
  · exact hlt
  · obtain rfl : i = content.length := by omega
    rcases h.stop with rfl | ⟨rfl, rfl⟩
    · simp at hc
      exact absurd hc.symm hne
    · simp at hc

/-- The iteration of two bodies that agree up to a shift, on the positions `≤ n`. -/
theorem iter_shift {greedy : Bool} {stepB stepL : Nat → List Nat} {p n : Nat}
    (hstep : ∀ i ≤ n, stepB (p + i) = (stepL i).map (p + ·) ∧ ∀ j ∈ stepL i, j ≤ n) :
    ∀ fuel fuel' i, i ≤ n → n < fuel + i → n < fuel' + i →
      iter greedy stepB fuel (p + i) = (iter greedy stepL fuel' i).map (p + ·) ∧
        ∀ j ∈ iter greedy stepL fuel' i, j ≤ n := by
  intro fuel
  induction fuel with
  | zero => intro fuel' i hi hf _; omega
  | succ fuel ih =>
      intro fuel' i hi hf hf'
      cases fuel' with
      | zero => omega
      | succ fuel' =>
          obtain ⟨heq, hle⟩ := hstep i hi
          have hmore : (stepB (p + i)).flatMap
                (fun j => if p + i < j then iter greedy stepB fuel j else [j])
              = ((stepL i).flatMap fun j => if i < j then iter greedy stepL fuel' j else [j]).map
                  (p + ·) := by
            rw [heq, List.flatMap_map, List.map_flatMap]
            refine List.flatMap_congr fun j hj => ?_
            by_cases hij : i < j
            · rw [if_pos hij, if_pos (by omega)]
              exact (ih fuel' j (hle j hj) (by omega) (by omega)).1
            · rw [if_neg hij, if_neg (by omega)]
              rfl
          constructor
          · cases greedy <;> simp only [iter, hmore, List.map_append, List.map_cons, List.map_nil,
              if_true, if_false, Bool.false_eq_true]
          · intro j hj
            rcases mem_iter_succ.mp hj with rfl | ⟨k, hk, hj⟩
            · exact hi
            · split at hj
              · exact (ih fuel' k (hle k hk) (by omega) (by omega)).2 j hj
              · obtain rfl : j = k := by simpa using hj
                exact hle j hk

/-- **Locality.** A line-local expression started on a line of a buffer matches what it matches on
that line alone, in the same order of preference, and never leaves the line's content. -/
theorem ends_line (h : LineAt t pre content tail post) (r : Rx α) (hr : LineLocal t r) :
    ∀ i ≤ content.length,
      ends r (pre ++ (content ++ tail) ++ post) (pre.length + i)
          = (ends r (content ++ tail) i).map (pre.length + ·) ∧
        ∀ j ∈ ends r (content ++ tail) i, j ≤ content.length := by
  induction r with
  | look holds =>
      intro i hi
      rw [ends, ends, hr pre content tail post h i hi]
      constructor
      · split <;> simp
      · intro j hj
        split at hj <;> simp_all
  | one accepts =>
      intro i hi
      rw [ends, ends, h.getElem? hi]
      cases hc : (content ++ tail)[i]? with
      | none => simp
      | some c =>
          by_cases hacc : accepts c
          · -- a local symbol is never the terminator, so that it lies inside the line
            have hne : c ≠ t := by
              rintro rfl
              simp [LineLocal] at hr
              simp [hr] at hacc
            have hlt := h.lt_of_getElem? hi hc hne
            simp [hacc, Nat.add_assoc, Nat.succ_le_of_lt hlt]
          · simp [hacc]
  | cat a b iha ihb =>
      intro i hi
      obtain ⟨heq, hle⟩ := iha hr.1 i hi
      constructor
      · rw [ends, ends, heq, List.flatMap_map, List.map_flatMap]
        exact List.flatMap_congr fun k hk => (ihb hr.2 k (hle k hk)).1
      · intro j hj
        obtain ⟨k, hk, hj⟩ := mem_ends_cat.mp hj
        exact (ihb hr.2 k (hle k hk)).2 j hj
  | alt a b iha ihb =>
      intro i hi
      obtain ⟨heqa, hlea⟩ := iha hr.1 i hi
      obtain ⟨heqb, hleb⟩ := ihb hr.2 i hi
      constructor
      · rw [ends, ends, heqa, heqb, List.map_append]
      · intro j hj
        rcases mem_ends_alt.mp hj with hj | hj
        · exact hlea j hj
        · exact hleb j hj
  | star greedy a ih =>
      -- the rounds are bounded by the buffer, which is longer on the left
      intro i hi
      have hlen : content.length ≤ (content ++ tail).length := by simp
      have hbuf : pre.length + content.length ≤ (pre ++ (content ++ tail) ++ post).length := by
        simp only [List.length_append]
        omega
      exact iter_shift (ih hr) _ _ i hi (by omega) (by omega)
  | notAhead a ih =>
      intro i hi
      obtain ⟨heq, -⟩ := ih hr i hi
      rw [ends, ends, heq]
      constructor
      · cases ends a (content ++ tail) i <;> simp
      · intro j hj
        split at hj <;> simp_all

theorem findSome?_congr_of_mem {β γ : Type*} {f g : β → Option γ} :
    ∀ {l : List β}, (∀ x ∈ l, f x = g x) → l.findSome? f = l.findSome? g
  | [], _ => rfl
  | x :: xs, h => by
      rw [List.findSome?_cons, List.findSome?_cons, h x List.mem_cons_self,
        findSome?_congr_of_mem fun y hy => h y (List.mem_cons_of_mem x hy)]

/-- A search passes over the starts before `m` and then continues as a search from `m`. -/
theorem findAt_split (r : Rx α) (s : List α) (e m : Nat) (hem : e ≤ m) (hm : m ≤ s.length + 1) :
    findAt r s e = ((List.range' e (m - e)).findSome? fun i => (ends r s i).head?.map (i, ·)).or
      (findAt r s m) := by
  have hsplit : List.range' e (s.length + 1 - e)
      = List.range' e (m - e) ++ List.range' m (s.length + 1 - m) := by
    rw [show s.length + 1 - e = (m - e) + (s.length + 1 - m) by omega,
      ← List.range'_append_1, show e + (m - e) = m by omega]
  rw [findAt, hsplit, List.findSome?_append]
  rfl

/-- The starts on a line's content are searched alike in the buffer and in the line. -/
theorem findSome_line (h : LineAt t pre content tail post) {r : Rx α} (hr : LineLocal t r)
    (e : Nat) :
    ((List.range' (pre.length + e) (content.length + 1 - e)).findSome? fun i =>
        (ends r (pre ++ (content ++ tail) ++ post) i).head?.map (i, ·))
      = ((List.range' e (content.length + 1 - e)).findSome? fun i =>
          (ends r (content ++ tail) i).head?.map (i, ·)).map
            fun m => (pre.length + m.1, pre.length + m.2) := by
  rw [List.map_findSome?, ← List.map_add_range', List.findSome?_map]
  refine findSome?_congr_of_mem fun i hi => ?_
  rw [List.mem_range'_1] at hi
  simp only [Function.comp, (ends_line h r hr i (by omega)).1, List.head?_map, Option.map_map]
  rfl

/-- What happens on one line: the buffer's iteration reports the line's own matches (those that
start on its content) and then continues at the start of the next line. -/
theorem findIterFrom_line (h : LineAt t pre content tail post) {r : Rx α} (hr : LineLocal t r)
    {B : Nat} (hB : B = (pre ++ (content ++ tail) ++ post).length) :
    ∀ fuel fuel' e lm, e ≤ content.length + 1 → B + 1 < fuel + (pre.length + e) →
      (content ++ tail).length + 1 < fuel' + e → (∀ q, lm = some q → q ≤ content.length) →
      findIterFrom r (pre ++ (content ++ tail) ++ post) fuel (pre.length + e)
          (lm.map (pre.length + ·))
        = ((findIterFrom r (content ++ tail) fuel' e lm).filter (·.1 ≤ content.length)).map
            (fun m => (pre.length + m.1, pre.length + m.2))
          ++ findIterFrom r (pre ++ (content ++ tail) ++ post) (B + 2)
              (pre.length + (content.length + 1)) none := by
  have hlenL : content.length ≤ (content ++ tail).length := by simp
  have hlenB : pre.length + content.length ≤ (pre ++ (content ++ tail) ++ post).length := by
    simp only [List.length_append]
    omega
  intro fuel
  induction fuel with
  | zero => intro fuel' e lm he hf _ _; omega
  | succ fuel ih =>
      intro fuel' e lm he hf hf' hlm
      cases fuel' with
      | zero => omega
      | succ fuel' =>
      have hbuf := findAt_split r (pre ++ (content ++ tail) ++ post)
        (pre.length + e) (pre.length + (content.length + 1)) (by omega) (by omega)
      have hline := findAt_split r (content ++ tail) e (content.length + 1) he (by omega)
      rw [show pre.length + (content.length + 1) - (pre.length + e) = content.length + 1 - e by omega,
        findSome_line h hr] at hbuf
      cases hfound : (List.range' e (content.length + 1 - e)).findSome? fun i =>
          (ends r (content ++ tail) i).head?.map (i, ·) with
      | none =>
          simp only [hfound, Option.map_none, Option.none_or] at hbuf hline
          have hskip : findIterFrom r (pre ++ (content ++ tail) ++ post) (fuel + 1) (pre.length + e)
                (lm.map (pre.length + ·))
              = findIterFrom r (pre ++ (content ++ tail) ++ post) (B + 2)
                  (pre.length + (content.length + 1)) none := by
            refine findIterFrom_congr hbuf (by omega) (by omega) (.inr fun i j hij => ?_)
            have hb := findAt_bounds (hbuf ▸ hij)
            refine ⟨fun e => ?_, nofun⟩
            obtain ⟨q, hq, hqj⟩ := Option.map_eq_some_iff.mp e
            have := hlm q hq
            omega
          have hnone : (findIterFrom r (content ++ tail) (fuel' + 1) e lm).filter
              (·.1 ≤ content.length) = [] := by
            refine List.filter_eq_nil_iff.mpr fun m hm => ?_
            obtain ⟨i, j, hij, him⟩ := first_le_of_mem_findIterFrom hm
            have hb := findAt_bounds (hline ▸ hij)
            simp only [decide_eq_true_eq]
            omega
          rw [hskip, hnone, List.map_nil, List.nil_append]
      | some ij =>
          obtain ⟨i, j⟩ := ij
          simp only [hfound, Option.map_some, Option.some_or] at hbuf hline
          have hb := findAt_eq_some hline
          have hi : i ≤ content.length := by
            obtain ⟨k, hk, hki⟩ := List.exists_of_findSome?_eq_some hfound
            rw [List.mem_range'_1] at hk
            obtain ⟨_, -, hkj⟩ := Option.map_eq_some_iff.mp hki
            obtain ⟨rfl, -⟩ := Prod.mk.inj hkj
            omega
          have hj : j ≤ content.length := (ends_line h r hr i hi).2 j hb.2.2
          have hij : i ≤ j := (findAt_bounds hline).2.1
          -- the two runs take the same branch and resume at shifted positions
          have next : ∀ e' lm', e < e' → e' ≤ content.length + 1 →
              (∀ q, lm' = some q → q ≤ content.length) →
              findIterFrom r (pre ++ (content ++ tail) ++ post) fuel (pre.length + e')
                  (lm'.map (pre.length + ·))
                = ((findIterFrom r (content ++ tail) fuel' e' lm').filter
                    (·.1 ≤ content.length)).map (fun m => (pre.length + m.1, pre.length + m.2))
                  ++ findIterFrom r (pre ++ (content ++ tail) ++ post) (B + 2)
                      (pre.length + (content.length + 1)) none :=
            fun e' lm' h1 h2 h3 => ih fuel' e' lm' h2 (by omega) (by omega) h3
          rw [findIterFrom, findIterFrom, hbuf, hline]
          have hlast : lm.map (pre.length + ·) = some (pre.length + j) ↔ lm = some j := by
            cases lm <;> simp
          by_cases heq : i = j
          · subst heq
            have hstep : pre.length + i + 1 = pre.length + (i + 1) := by omega
            by_cases hl : lm = some i
            · simp only [if_pos hl, if_pos (hlast.mpr hl), if_true, hstep]
              exact next (i + 1) lm (by omega) (by omega) hlm
            · simp only [if_neg hl, if_neg (fun c => hl (hlast.mp c)), if_true, hstep]
              rw [List.filter_cons_of_pos (by simpa using hi), List.map_cons, List.cons_append]
              exact congrArg _ (next (i + 1) (some i) (by omega) (by omega) (by
                rintro q ⟨rfl⟩
                exact hi))
          · simp only [if_neg heq, if_neg (show ¬ pre.length + i = pre.length + j by omega)]
            rw [List.filter_cons_of_pos (by simpa using hi), List.map_cons, List.cons_append]
            exact congrArg _ (next j (some j) (by omega) (by omega) (by
              rintro q ⟨rfl⟩
              exact hj))

/-! ## §5 — the matches of a buffer are the matches of its lines. -/

section Linewise

variable [DecidableEq α]

/-- The lines of a text, each with its terminator; a final terminator opens no further line. -/
def lines (t : α) : List α → List (List α)
  | [] => []
  | c :: cs =>
      if c = t then [c] :: lines t cs
      else match lines t cs with
        | [] => [[c]]
        | l :: ls => (c :: l) :: ls

/-- A match that starts behind the final terminator of its text: the phantom line. -/
def phantom (t : α) (s : List α) (m : Nat × Nat) : Bool :=
  m.1 == s.length && s.getLast? == some t

/-- Line-by-line matching: every line is searched alone and its matches are moved to its offset. -/
def linewise (r : Rx α) (t : α) : Nat → List (List α) → List (Nat × Nat)
  | _, [] => []
  | offset, l :: ls =>
      ((findIter r l).filter fun m => !phantom t l m).map (fun m => (offset + m.1, offset + m.2))
        ++ linewise r t (offset + l.length) ls

theorem lines_of_clean {content : List α} (h : t ∉ content) (hne : content ≠ []) :
    lines t content = [content] := by
  induction content with
  | nil => exact absurd rfl hne
  | cons c cs ih =>
      simp only [List.mem_cons, not_or] at h
      rw [lines, if_neg (Ne.symm h.1)]
      cases cs with
      | nil => rfl
      | cons d ds => rw [ih h.2 (List.cons_ne_nil _ _)]

theorem lines_append_terminator {content : List α} (h : t ∉ content) (rest : List α) :
    lines t (content ++ t :: rest) = (content ++ [t]) :: lines t rest := by
  induction content with
  | nil => simp [lines]
  | cons c cs ih =>
      simp only [List.mem_cons, not_or] at h
      rw [List.cons_append, lines, if_neg (Ne.symm h.1), ih h.2]
      rfl

/-- On a line of its own, "not phantom" means "starts on the content". -/
theorem filter_phantom_line (h : LineAt t pre content tail post) (r : Rx α) :
    (findIter r (content ++ tail)).filter (fun m => !phantom t (content ++ tail) m)
      = (findIter r (content ++ tail)).filter (·.1 ≤ content.length) := by
  refine List.filter_congr fun m hm => ?_
  have hle := le_length_of_mem_findIterFrom hm
  rcases h.stop with rfl | ⟨rfl, rfl⟩
  · simp only [phantom, List.getLast?_append, List.getLast?_singleton, Option.some_or,
      List.length_append, List.length_singleton, BEq.rfl, Bool.and_true] at hle ⊢
    by_cases hm : m.1 = content.length + 1
    · simp [hm]
    · simp [hm, show m.1 ≤ content.length by omega]
  · simp only [List.append_nil] at hle ⊢
    have hlast : content.getLast? ≠ some t := fun hl => h.clean (List.mem_of_getLast? hl)
    simp [phantom, hlast, hle]

/-- The iteration from the start of a line to the end of the buffer. -/
theorem findIterFrom_lines {r : Rx α} (hr : LineLocal t r) (rest : List α) :
    ∀ pre : List α, (pre = [] ∨ pre.getLast? = some t) → pre ++ rest ≠ [] →
      (findIterFrom r (pre ++ rest) ((pre ++ rest).length + 2) pre.length none).filter
          (fun m => !phantom t (pre ++ rest) m)
        = linewise r t pre.length (lines t rest) := by
  induction rest using split_induction t with
  | clean rest hclean =>
      intro pre hpre hne
      by_cases hrest : rest = []
      · -- behind the final terminator only the phantom line is left
        subst hrest
        rw [List.append_nil] at hne ⊢
        refine List.filter_eq_nil_iff.mpr fun m hm => ?_
        obtain ⟨i, j, hij, him⟩ := first_le_of_mem_findIterFrom hm
        have hstart := (findAt_bounds hij).1
        have hle := le_length_of_mem_findIterFrom hm
        simp [phantom, hpre.resolve_left hne, show m.1 = pre.length by omega]
      -- one unterminated line: it ends the buffer
      have h : LineAt t pre rest [] [] := ⟨hpre, hclean, .inr ⟨rfl, rfl⟩⟩
      have hstep := findIterFrom_line h hr rfl ((pre ++ rest).length + 2) (rest.length + 2) 0 none
        (by omega) (by simp; omega) (by simp) nofun
      have hdone : findIterFrom r (pre ++ rest) ((pre ++ rest).length + 2)
          (pre.length + (rest.length + 1)) none = [] := by
        refine List.eq_nil_iff_forall_not_mem.mpr fun m hm => ?_
        obtain ⟨i, j, hij, -⟩ := first_le_of_mem_findIterFrom hm
        have hb := findAt_bounds hij
        simp only [List.length_append] at hb
        omega
      have hlast : (pre ++ rest).getLast? ≠ some t := fun hl =>
        hclean (List.mem_of_getLast? (by rwa [List.getLast?_append_of_ne_nil _ hrest] at hl))
      have hall : (fun m : Nat × Nat => !phantom t (pre ++ rest) m) = fun _ => true := by
        funext m
        simp only [phantom, beq_eq_false_iff_ne.mpr hlast, Bool.and_false, Bool.not_false]
      simp only [List.append_nil, Nat.add_zero, Option.map_none] at hstep
      rw [hall, List.filter_true, hstep, hdone, lines_of_clean hclean hrest, linewise, linewise]
      have hline := filter_phantom_line h r
      rw [List.append_nil] at hline
      rw [hline]
      rfl
  | split content post hclean ih =>
      intro pre hpre hne
      have h : LineAt t pre content [t] post := ⟨hpre, hclean, .inl rfl⟩
      have hstep := findIterFrom_line h hr rfl ((pre ++ (content ++ [t]) ++ post).length + 2)
        ((content ++ [t]).length + 2) 0 none (by omega) (by simp; omega) (by simp) nofun
      have hbuf : pre ++ content ++ t :: post = pre ++ (content ++ [t]) ++ post := by simp
      have hnext := ih (pre ++ (content ++ [t])) (.inr (by simp)) (by simp)
      have hlen : (pre ++ (content ++ [t])).length = pre.length + (content.length + 1) := by simp
      simp only [Nat.add_zero, Option.map_none] at hstep
      rw [← List.append_assoc, hbuf, hstep, List.filter_append, lines_append_terminator hclean,
        linewise, filter_phantom_line h r, ← hlen, hnext, hlen, ← findIter, List.length_append,
        List.length_singleton]
      refine congrArg (· ++ _) (List.filter_eq_self.mpr fun m hm => ?_)
      -- matches on this line's content start before the end of the buffer
      obtain ⟨k, hk, rfl⟩ := List.mem_map.mp hm
      have hkc : k.1 ≤ content.length := by simpa using (List.mem_filter.mp hk).2
      have hne' : ¬ pre.length + k.1 = (pre ++ (content ++ [t]) ++ post).length := by
        simp only [List.length_append, List.length_singleton]
        omega
      simp [phantom] at hne' ⊢
      omega

/-- **Line-by-line matching.** For a line-local expression the find-iterator over a whole non-empty
buffer reports exactly what searching line by line reports. -/
theorem findIter_eq_linewise {r : Rx α} (hr : LineLocal t r) {s : List α} (hs : s ≠ []) :
    (findIter r s).filter (fun m => !phantom t s m) = linewise r t 0 (lines t s) := by
  have h := findIterFrom_lines hr s [] (.inl rfl) (by simpa using hs)
  simpa [findIter] using h

end Linewise

end Line

end Rx

end JevGrep.Lib.Regex
