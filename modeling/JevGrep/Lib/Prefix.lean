/-
# `JevGrep.Lib.Prefix` — the longest part of a list that fits.

`fits` says which lists are within a budget; a budget is `Closed` if the start of a list that fits fits.
Whoever keeps elements in order, up to the first that does not fit, has the longest start that fits.
-/
import Mathlib.Data.List.Infix

namespace JevGrep.Lib.Prefix

variable {α : Type*} {fits : List α → Prop} {all kept kept' : List α}

/-- What fits, fits in part. -/
def Closed (fits : List α → Prop) : Prop := ∀ {a b : List α}, a <+: b → fits b → fits a

/-- `kept` is the longest start of `all` that fits. -/
structure Longest (fits : List α → Prop) (all kept : List α) : Prop where
  start : kept <+: all
  fitting : fits kept
  longest : ∀ {a}, a <+: all → fits a → a <+: kept

/-- All of the list was kept. -/
theorem Longest.whole (h : fits all) : Longest fits all all where
  start := List.prefix_rfl
  fitting := h
  longest hstart _ := hstart

/-- The first element that was not kept does not fit. -/
theorem Longest.stopped (hclosed : Closed fits) {next : α} (hnext : kept ++ [next] <+: all) (hkept : fits kept)
    (hfull : ¬fits (kept ++ [next])) : Longest fits all kept where
  start := (List.prefix_append _ _).trans hnext
  fitting := hkept
  longest {a} hstart hfits := by
    rcases List.prefix_or_prefix_of_prefix hstart hnext with h | h
    · -- one element short of `kept ++ [next]`, or all of it
      rcases List.prefix_concat_iff.1 h with rfl | h
      · exact absurd hfits hfull
      · exact h
    · exact absurd (hclosed h hfits) hfull

/-- What stops before its end is the longest start of whatever goes on there. -/
theorem Longest.more (hclosed : Closed fits) (h : Longest fits all kept) (hne : kept ≠ all) {all' : List α}
    (hmore : all <+: all') : Longest fits all' kept := by
  obtain ⟨rest, hrest⟩ := h.start
  cases rest with
  | nil => exact absurd ((List.append_nil _).symm.trans hrest) hne
  | cons next rest =>
    have hnext : kept ++ [next] <+: all := ⟨rest, by rw [List.append_assoc, ← hrest]; rfl⟩
    refine .stopped hclosed (hnext.trans hmore) h.fitting fun hfits => ?_
    have hle := (h.longest hnext hfits).length_le
    rw [List.length_append, List.length_singleton] at hle
    omega

theorem Longest.unique (h : Longest fits all kept) (h' : Longest fits all kept') : kept = kept' :=
  (h'.longest h.start h.fitting).eq_of_length_le (h.longest h'.start h'.fitting).length_le

end JevGrep.Lib.Prefix
