/-
# `JevGrep.Lib.Transition` — runs of an event-driven machine and the traces they leave.

A machine is a total step function on a state and an event; a run folds it over the events in the order
they arrive. `run_invariant` is the one induction every safety result rests on. A trace (newest entry
first) is `Justified` when every entry is allowed by the entries before it; such a trace answers
questions about order and multiplicity by looking at one entry at a time.
-/
import Mathlib.Data.List.Basic

namespace JevGrep.Lib.Transition

section Runs

variable {σ ε : Type*} {step : ε → σ → σ} {init : σ}

/-- The state behind a sequence of events. -/
def run (step : ε → σ → σ) (init : σ) (events : List ε) : σ :=
  events.foldl (fun s e => step e s) init

theorem run_append (es es' : List ε) : run step init (es ++ es') = run step (run step init es) es' :=
  List.foldl_append

/-- What holds at the start and survives every step holds behind every run. -/
theorem run_invariant {inv : σ → Prop} (h0 : inv init) (hstep : ∀ e s, inv s → inv (step e s))
    (events : List ε) : inv (run step init events) := by
  induction events generalizing init with
  | nil => exact h0
  | cons e es ih => exact ih (hstep e init h0)

/-- What every step keeps is kept along a run. -/
theorem run_stable {inv keeps : σ → Prop} (hstep : ∀ e s, inv s → inv (step e s))
    (hkeeps : ∀ e s, inv s → keeps s → keeps (step e s)) (h0 : inv init) (hk : keeps init)
    (events : List ε) : keeps (run step init events) :=
  (@run_invariant _ _ step init (fun s => inv s ∧ keeps s) ⟨h0, hk⟩
    (fun e s h => ⟨hstep e s h.1, hkeeps e s h.1 h.2⟩) events).2

end Runs

section Traces

variable {ε : Type*} {allowed : List ε → ε → Prop}

/-- Every entry of a newest-first trace is allowed by the entries before it. -/
def Justified (allowed : List ε → ε → Prop) : List ε → Prop
  | [] => True
  | e :: earlier => allowed earlier e ∧ Justified allowed earlier

theorem Justified.of_append {later earlier : List ε} (h : Justified allowed (later ++ earlier)) :
    Justified allowed earlier := by
  induction later with
  | nil => exact h
  | cons e later ih => exact ih h.2

/-- Any entry of a justified trace is allowed by what stands before it. -/
theorem Justified.entry {later earlier : List ε} {e : ε}
    (h : Justified allowed (later ++ e :: earlier)) : allowed earlier e :=
  h.of_append.1

/-- An entry that excludes its own kind from everything before it occurs at most once. -/
theorem Justified.at_most_once {kind : ε → Bool}
    (hkind : ∀ earlier e, allowed earlier e → kind e = true → ∀ d ∈ earlier, kind d = false)
    {trace : List ε} (h : Justified allowed trace) : (trace.filter kind).length ≤ 1 := by
  induction trace with
  | nil => exact Nat.zero_le 1
  | cons e earlier ih =>
      by_cases he : kind e = true
      · have hnone : earlier.filter kind = [] := by
          rw [List.filter_eq_nil_iff]
          intro d hd
          rw [hkind earlier e h.1 he d hd]
          exact Bool.false_ne_true
        rw [List.filter_cons_of_pos he, hnone]
        exact Nat.le_refl 1
      · rw [List.filter_cons_of_neg he]
        exact ih h.2

end Traces

end JevGrep.Lib.Transition
