/-
# `JevGrep.Lib.Canonical` — a sorted list without duplicates stands for its set.

Two lists have the same canonical form exactly when they have the same members, whatever their order
and repetitions. §1 duplicates; §2 the canonical form.
-/
import Mathlib.Data.List.Sort

namespace JevGrep.Lib.Canonical

variable {α : Type} [BEq α]

/-! ## §1 — duplicates. -/

/-- Induction from a list to what is left of its tail without copies of its head. -/
theorem eraseDups_induction {P : List α → Prop} (nil : P [])
    (cons : ∀ a as, P (as.filter fun b => !b == a) → P (a :: as)) (items : List α) : P items := by
  induction h : items.length using Nat.strong_induction_on generalizing items with
  | _ n ih =>
    cases items with
    | nil => exact nil
    | cons a as =>
      have hle := List.length_filter_le (fun b => !b == a) as
      rw [List.length_cons] at h
      exact cons a as (ih _ (by omega) _ rfl)

theorem length_eraseDups_le (items : List α) : items.eraseDups.length ≤ items.length := by
  induction items using eraseDups_induction with
  | nil => exact Nat.le_refl _
  | cons a as ih =>
    have hle := List.length_filter_le (fun b => !b == a) as
    rw [List.eraseDups_cons, List.length_cons, List.length_cons]
    exact Nat.succ_le_succ (ih.trans hle)

theorem nodup_eraseDups [LawfulBEq α] (items : List α) : items.eraseDups.Nodup := by
  induction items using eraseDups_induction with
  | nil => exact List.nodup_nil
  | cons a as ih =>
    rw [List.eraseDups_cons, List.nodup_cons]
    refine ⟨fun hmem => ?_, ih⟩
    rw [List.mem_eraseDups, List.mem_filter] at hmem
    simp at hmem

/-! ## §2 — the canonical form. -/

section Form

variable (r : α → α → Prop) [DecidableRel r]

/-- Without duplicates, in order. -/
def canonical (items : List α) : List α := items.eraseDups.insertionSort r

theorem length_canonical_le (items : List α) : (canonical r items).length ≤ items.length := by
  rw [canonical, List.length_insertionSort]
  exact length_eraseDups_le items

variable [LawfulBEq α]

theorem mem_canonical {items : List α} {a : α} : a ∈ canonical r items ↔ a ∈ items := by
  rw [canonical, List.mem_insertionSort, List.mem_eraseDups]

theorem nodup_canonical (items : List α) : (canonical r items).Nodup :=
  (List.perm_insertionSort r _).nodup_iff.2 (nodup_eraseDups items)

/-- **The canonical form is the set**: equal forms have equal members, and the other way round. -/
theorem canonical_eq_iff [Std.Total r] [IsTrans α r] [Std.Antisymm r] {items items' : List α} :
    canonical r items = canonical r items' ↔ ∀ a, a ∈ items ↔ a ∈ items' := by
  constructor
  · intro h a
    rw [← mem_canonical r, h, mem_canonical]
  · intro h
    have hperm : (canonical r items).Perm (canonical r items') := by
      rw [List.perm_ext_iff_of_nodup (nodup_canonical r items) (nodup_canonical r items')]
      intro a
      rw [mem_canonical, mem_canonical]
      exact h a
    exact hperm.eq_of_pairwise' (List.pairwise_insertionSort r _) (List.pairwise_insertionSort r _)

end Form

end JevGrep.Lib.Canonical
