/-
# `JevGrep.Lib.Split` — lists cut at a separator.

The induction principle of a separated list (`split_induction`: one clean piece, or a clean piece, the
separator and a separated rest) and what the pieces of `List.splitOn` are made of. Core's `splitOn`
lemmas give the computation rules; nothing here repeats them.
-/
import Mathlib.Data.List.Basic
import Mathlib.Tactic.Common

namespace JevGrep.Lib.Split

variable {α : Type*} [DecidableEq α]

/-- **Induction along the separators** of a list. -/
theorem split_induction (a : α) {motive : List α → Prop}
    (clean : ∀ s, a ∉ s → motive s)
    (split : ∀ c r, a ∉ c → motive r → motive (c ++ a :: r)) (s : List α) : motive s := by
  suffices h : ∀ n (s : List α), s.length ≤ n → motive s from h _ s (Nat.le_refl _)
  intro n
  induction n with
  | zero =>
      intro s hn
      obtain rfl : s = [] := List.length_eq_zero_iff.mp (by omega)
      exact clean [] List.not_mem_nil
  | succ n ih =>
      intro s hn
      by_cases hmem : a ∈ s
      · obtain ⟨c, r, rfl, hc⟩ := List.eq_append_cons_of_mem hmem
        exact split c r hc (ih r (by simp at hn; omega))
      · exact clean s hmem

/-- A piece holds symbols of the list, and never the separator. -/
theorem of_mem_splitOn {a : α} {s comp : List α} (h : comp ∈ s.splitOn a) :
    ∀ x ∈ comp, x ∈ s ∧ x ≠ a := by
  induction s using split_induction a with
  | clean s hs =>
      rw [List.splitOn_eq_singleton hs, List.mem_singleton] at h
      subst h
      exact fun x hx => ⟨hx, fun e => hs (e ▸ hx)⟩
  | split c r hc ih =>
      rw [List.splitOn_append_cons_self_of_not_mem hc, List.mem_cons] at h
      intro x hx
      rcases h with rfl | h
      · exact ⟨List.mem_append_left _ hx, fun e => hc (e ▸ hx)⟩
      · exact ⟨List.mem_append_right _ (List.mem_cons_of_mem _ (ih h x hx).1), (ih h x hx).2⟩

/-- A symbol of the list is the separator or stands in a piece. -/
theorem mem_splitOn_of_mem {a : α} {s : List α} {x : α} (hx : x ∈ s) (hne : x ≠ a) :
    ∃ comp ∈ s.splitOn a, x ∈ comp := by
  induction s using split_induction a with
  | clean s hs =>
      exact ⟨s, by rw [List.splitOn_eq_singleton hs]; exact List.mem_singleton_self s, hx⟩
  | split c r hc ih =>
      rw [List.splitOn_append_cons_self_of_not_mem hc]
      rcases List.mem_append.mp hx with hx | hx
      · exact ⟨c, List.mem_cons_self, hx⟩
      · obtain ⟨comp, hcomp, hxc⟩ := ih ((List.mem_cons.mp hx).resolve_left hne)
        exact ⟨comp, List.mem_cons_of_mem _ hcomp, hxc⟩

end JevGrep.Lib.Split
