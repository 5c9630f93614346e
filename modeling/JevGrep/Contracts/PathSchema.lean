/-
# `JevGrep.Contracts.PathSchema` — the relative-path grammar of `schemas.ts` against `valid_path`.

`PathSchema` spells the component rule as a regular expression: two negative lookaheads, then a
repeated character class. The expression is embedded as written (`pathRegex`) over UTF-16 code units,
with the flagless ECMAScript reading of `.` (any unit but LF, CR, U+2028 and U+2029), and its verdict
is computed from the components of the string (`pathSchema_iff`).

The second lookahead scans with `.*`, and `.` stops at U+2028 and U+2029 while the character class of
the body does not. A traversal component is therefore seen only when no such unit stands before it:
`exposesTraversal` walks the components exactly as far as the lookahead can see.
-/
import JevGrep.Lib.Regex
import JevGrep.Lib.Utf16
import JevGrep.Worker.Types

namespace JevGrep.Contracts

open JevGrep.Lib.Regex
open JevGrep.Lib.Regex.Rx
open JevGrep.Lib.Split
open JevGrep.Lib.Utf16
open JevGrep.Worker (Str validPath)

/-- A JavaScript string. -/
abbrev JsString := List UInt16

/-! ## §1 — `PathSchema`, as written. -/

def slash : UInt16 := 0x2f
def period : UInt16 := 0x2e

/-- What `.` does not match without flags. -/
def isLineTerminator (c : UInt16) : Bool := c == 0x0a || c == 0x0d || c == 0x2028 || c == 0x2029

/-- The class `[^\u0000\\\r\n/]`. -/
def pathUnit (c : UInt16) : Bool :=
  !(c == 0 || c == 0x5c || c == 0x0d || c == 0x0a || c == slash)

/-- `^` and `$` without flags, a code unit, and `.`. -/
def startAnchor : Rx UInt16 := look fun _ i => i == 0
def endAnchor : Rx UInt16 := look fun s i => i == s.length
def sym (u : UInt16) : Rx UInt16 := one (· == u)
def anyUnit : Rx UInt16 := one fun c => !isLineTerminator c

/-- `.*(?:^|\/)\.{1,2}(?:\/|$)`, the body of the second lookahead. -/
def traversalAhead : Rx UInt16 :=
  cat (star true anyUnit) (cat (alt startAnchor (sym slash))
    (cat (cat (sym period) (alt (sym period) (look fun _ _ => true))) (alt (sym slash) endAnchor)))

/-- `[^\u0000\\\r\n/]+(?:\/[^\u0000\\\r\n/]+)*$`. -/
def componentsToEnd : Rx UInt16 :=
  cat (plus true (one pathUnit))
    (cat (star true (cat (sym slash) (plus true (one pathUnit)))) endAnchor)

/-- `/^(?!\/)(?!.*(?:^|\/)\.{1,2}(?:\/|$))[^\u0000\\\r\n/]+(?:\/[^\u0000\\\r\n/]+)*$/`. -/
def pathRegex : Rx UInt16 :=
  cat startAnchor (cat (notAhead (sym slash)) (cat (notAhead traversalAhead) componentsToEnd))

/-- `PathSchema`: `z.string().min(1).max(4096).regex(…)`. -/
def pathSchema (s : JsString) : Bool :=
  1 ≤ s.length && s.length ≤ 4096 && pathRegex.test s

/-! ## §2 — the grammar the schema is meant to accept. -/

def isDots (comp : JsString) : Bool := comp == [period] || comp == [period, period]

/-- The rules other than traversal: length, forbidden units, no empty component. -/
structure WellShaped (s : JsString) : Prop where
  length : 1 ≤ s.length ∧ s.length ≤ 4096
  units : ∀ c ∈ s, c ≠ 0 ∧ c ≠ 0x5c ∧ c ≠ 0x0d ∧ c ≠ 0x0a
  components : ∀ comp ∈ s.splitOn slash, comp ≠ []

/-- The documented path grammar: well shaped, and no component is `.` or `..`. -/
structure PathGrammar (s : JsString) : Prop extends WellShaped s where
  noTraversal : ∀ comp ∈ s.splitOn slash, comp ≠ [period] ∧ comp ≠ [period, period]

/-- Some component is `.` or `..` and no line terminator stands in the components before it. -/
def exposesTraversal : List JsString → Bool
  | [] => false
  | c :: cs => isDots c || (!c.any isLineTerminator && exposesTraversal cs)

/-! ## §3 — the body of the expression reads the components. -/

/-- Non-empty runs of allowed units, separated by single slashes. -/
inductive Components : JsString → Prop
  | last {c : JsString} : c ≠ [] → (∀ u ∈ c, pathUnit u = true) → Components c
  | more {c r : JsString} : c ≠ [] → (∀ u ∈ c, pathUnit u = true) → Components r →
      Components (c ++ slash :: r)

theorem pathUnit_slash : pathUnit slash = false := by decide

theorem slash_notMem {c : JsString} (h : ∀ u ∈ c, pathUnit u = true) : slash ∉ c := fun hm => by
  have := h slash hm
  rw [pathUnit_slash] at this
  cases this

theorem components_iff (s : JsString) :
    Components s ↔ ∀ comp ∈ s.splitOn slash, comp ≠ [] ∧ ∀ u ∈ comp, pathUnit u = true := by
  constructor
  · intro h
    induction h with
    | last hne hu =>
        rw [List.splitOn_eq_singleton (slash_notMem hu)]
        simpa using ⟨hne, hu⟩
    | more hne hu _ ih =>
        rw [List.splitOn_append_cons_self_of_not_mem (slash_notMem hu)]
        simpa using ⟨⟨hne, hu⟩, ih⟩
  · intro h
    induction s using split_induction slash with
    | clean s hs =>
        rw [List.splitOn_eq_singleton hs] at h
        exact .last (h s (List.mem_singleton_self s)).1 (h s (List.mem_singleton_self s)).2
    | split c r hc ih =>
        rw [List.splitOn_append_cons_self_of_not_mem hc] at h
        obtain ⟨hne, hu⟩ := h c List.mem_cons_self
        exact .more hne hu (ih fun comp hcomp => h comp (List.mem_cons_of_mem _ hcomp))

/-- Components are a first component and either nothing or a slash and components. -/
theorem components_split_iff (s : JsString) :
    Components s ↔ ∃ c v, s = c ++ v ∧ c ≠ [] ∧ (∀ u ∈ c, pathUnit u = true) ∧
      (v = [] ∨ ∃ r, v = slash :: r ∧ Components r) := by
  constructor
  · intro h
    cases h with
    | last hne hall => exact ⟨s, [], by simp, hne, hall, .inl rfl⟩
    | more hne hall hr => exact ⟨_, _, rfl, hne, hall, .inr ⟨_, rfl, hr⟩⟩
  · rintro ⟨c, v, rfl, hne, hall, rfl | ⟨r, rfl, hr⟩⟩
    · rw [List.append_nil]
      exact .last hne hall
    · exact .more hne hall hr

/-- `[^…]+` started behind `pre` takes a non-empty run of allowed units. -/
theorem mem_ends_plus_unit {pre u : JsString} {j : Nat} :
    j ∈ ends (plus true (one pathUnit)) (pre ++ u) pre.length ↔
      ∃ c v, u = c ++ v ∧ c ≠ [] ∧ (∀ x ∈ c, pathUnit x = true) ∧ j = pre.length + c.length := by
  rw [plus, mem_ends_cat]
  constructor
  · rintro ⟨k, hk, hj⟩
    obtain ⟨rfl, x, hx, hxu⟩ := mem_ends_one.mp hk
    have hlt : pre.length < (pre ++ u).length := (List.getElem?_eq_some_iff.mp hx).1
    obtain ⟨hle, hlen, hall⟩ := (mem_ends_star_one (by omega)).mp hj
    rw [List.length_append] at hlen
    refine ⟨u.take (j - pre.length), u.drop (j - pre.length), (List.take_append_drop _ _).symm,
      ?_, ?_, ?_⟩
    · rw [Ne, List.take_eq_nil_iff, not_or]
      refine ⟨by omega, ?_⟩
      rintro rfl
      simp at hlt
    · intro y hy
      obtain ⟨n, hny⟩ := List.mem_iff_getElem?.mp hy
      have hn : n < j - pre.length := by
        have := (List.getElem?_eq_some_iff.mp hny).1
        rw [List.length_take] at this
        exact (Nat.lt_min.mp this).1
      rw [List.getElem?_take_of_lt hn] at hny
      have hat : (pre ++ u)[pre.length + n]? = some y := by
        rw [List.getElem?_append_right (by omega), Nat.add_sub_cancel_left, hny]
      rcases Nat.eq_zero_or_pos n with rfl | hpos
      · rw [Nat.add_zero, hx] at hat
        exact Option.some.inj hat ▸ hxu
      · obtain ⟨z, hz, hzu⟩ := hall (pre.length + n) (by omega) (by omega)
        rw [hat] at hz
        exact Option.some.inj hz ▸ hzu
    · rw [List.length_take, Nat.min_eq_left (by omega)]
      omega
  · rintro ⟨comp, v, rfl, hne, hall, rfl⟩
    have hpos : 0 < comp.length := List.length_pos_iff.mpr hne
    have hat : ∀ n (hn : n < comp.length), (pre ++ (comp ++ v))[pre.length + n]? = some comp[n] := by
      intro n hn
      rw [List.getElem?_append_right (by omega), Nat.add_sub_cancel_left,
        List.getElem?_append_left hn, List.getElem?_eq_getElem hn]
    refine ⟨pre.length + 1,
      mem_ends_one.mpr ⟨rfl, comp[0], ?_, hall _ (List.getElem_mem hpos)⟩, ?_⟩
    · simpa using hat 0 hpos
    · rw [mem_ends_star_one (by simp; omega)]
      refine ⟨by omega, by simp, fun k h1 h2 =>
        ⟨comp[k - pre.length], ?_, hall _ (List.getElem_mem _)⟩⟩
      · have := hat (k - pre.length) (by omega)
        rwa [show pre.length + (k - pre.length) = k by omega] at this

/-- `\/[^…]+`, one further component. -/
def nextComponent : Rx UInt16 := cat (sym slash) (plus true (one pathUnit))

theorem mem_ends_nextComponent {s : JsString} {i j : Nat} :
    j ∈ ends nextComponent s i ↔
      s[i]? = some slash ∧ j ∈ ends (plus true (one pathUnit)) s (i + 1) := by
  simp only [nextComponent, sym, mem_ends_cat, mem_ends_one]
  constructor
  · rintro ⟨k, ⟨rfl, c, hc, hcs⟩, hj⟩
    obtain rfl : c = slash := by simpa using hcs
    exact ⟨hc, hj⟩
  · rintro ⟨hc, hj⟩
    exact ⟨i + 1, ⟨rfl, slash, hc, by simp⟩, hj⟩

/-- Further components up to the end of the text: nothing, or a slash and components. -/
theorem nextComponents_iff (pre v : JsString) :
    Relation.ReflTransGen (fun x y => y ∈ ends nextComponent (pre ++ v) x) pre.length
        (pre ++ v).length ↔
      v = [] ∨ ∃ r, v = slash :: r ∧ Components r := by
  suffices h : ∀ n (v pre : JsString), v.length ≤ n →
      (Relation.ReflTransGen (fun x y => y ∈ ends nextComponent (pre ++ v) x) pre.length
          (pre ++ v).length ↔ v = [] ∨ ∃ r, v = slash :: r ∧ Components r) from
    h _ v pre (Nat.le_refl _)
  intro n
  induction n with
  | zero =>
      intro v pre hn
      obtain rfl : v = [] := List.length_eq_zero_iff.mp (by omega)
      simp [Relation.ReflTransGen.refl]
  | succ n ih =>
      intro v pre hn
      cases v with
      | nil => simp [Relation.ReflTransGen.refl]
      | cons x r =>
          have hhead : (pre ++ x :: r)[pre.length]? = some x := by
            rw [List.getElem?_append_right (Nat.le_refl _), Nat.sub_self]
            rfl
          have hassoc : pre ++ x :: r = (pre ++ [x]) ++ r := by simp
          constructor
          · intro hchain
            rcases Relation.ReflTransGen.cases_head hchain with heq | ⟨k, hk, hrest⟩
            · simp at heq
            obtain ⟨hx, hk⟩ := mem_ends_nextComponent.mp hk
            obtain rfl : x = slash := Option.some.inj (hhead ▸ hx)
            rw [hassoc, show pre.length + 1 = (pre ++ [slash]).length by simp,
              mem_ends_plus_unit] at hk
            obtain ⟨c, w, rfl, hne, hall, rfl⟩ := hk
            have hpos := List.length_pos_iff.mpr hne
            rw [hassoc, ← List.length_append, ← List.append_assoc,
              ih w (pre ++ [slash] ++ c) (by simp at hn; omega)] at hrest
            exact .inr ⟨c ++ w, rfl, (components_split_iff _).mpr ⟨c, w, rfl, hne, hall, hrest⟩⟩
          · rintro (h | ⟨r', heq, hr'⟩)
            · cases h
            obtain ⟨rfl, rfl⟩ : x = slash ∧ r = r' := by simpa using heq
            obtain ⟨c, w, rfl, hne, hall, hw⟩ := (components_split_iff r).mp hr'
            have hpos := List.length_pos_iff.mpr hne
            have hfirst : (pre ++ [slash] ++ c).length ∈
                ends nextComponent (pre ++ slash :: (c ++ w)) pre.length := by
              rw [mem_ends_nextComponent, hassoc,
                show pre.length + 1 = (pre ++ [slash]).length by simp, mem_ends_plus_unit]
              exact ⟨by rw [← hassoc]; exact hhead, c, w, rfl, hne, hall, by simp; omega⟩
            refine .head hfirst ?_
            rw [hassoc, ← List.append_assoc]
            exact (ih w (pre ++ [slash] ++ c) (by simp at hn; omega)).mpr hw

/-- **The body of the expression** matches from the start to the end exactly on components. -/
theorem componentsToEnd_iff (s : JsString) :
    (∃ j, j ∈ ends componentsToEnd s 0) ↔ Components s := by
  have hstar : ∀ k ≤ s.length, ((∃ j, j ∈ ends (cat (star true nextComponent) endAnchor) s k) ↔
      Relation.ReflTransGen (fun x y => y ∈ ends nextComponent s x) k s.length) := by
    intro k hk
    simp only [mem_ends_cat, endAnchor, mem_ends_look, beq_iff_eq, mem_ends_star hk]
    constructor
    · rintro ⟨j, m, hm, rfl, rfl⟩
      exact hm
    · intro h
      exact ⟨_, _, h, rfl, rfl⟩
  have hbody : componentsToEnd
      = cat (plus true (one pathUnit)) (cat (star true nextComponent) endAnchor) := rfl
  have hplus : ∀ k, k ∈ ends (plus true (one pathUnit)) s 0 ↔
      ∃ c v, s = c ++ v ∧ c ≠ [] ∧ (∀ x ∈ c, pathUnit x = true) ∧ k = c.length := by
    intro k
    simpa using @mem_ends_plus_unit [] s k
  constructor
  · rintro ⟨j, hj⟩
    rw [hbody, mem_ends_cat] at hj
    obtain ⟨k, hk, hj⟩ := hj
    obtain ⟨c, v, rfl, hne, hall, rfl⟩ := (hplus k).mp hk
    have hchain := (hstar c.length (by simp)).mp ⟨j, hj⟩
    have htail := (nextComponents_iff c v).mp hchain
    exact (components_split_iff _).mpr ⟨c, v, rfl, hne, hall, htail⟩
  · intro h
    obtain ⟨c, v, rfl, hne, hall, hv⟩ := (components_split_iff s).mp h
    obtain ⟨j, hj⟩ := (hstar c.length (by simp)).mpr ((nextComponents_iff c v).mpr hv)
    rw [hbody]
    exact ⟨j, mem_ends_cat.mpr ⟨c.length, (hplus _).mpr ⟨c, v, rfl, hne, hall, rfl⟩, hj⟩⟩

/-! ## §4 — what the second lookahead sees. -/

/-- A traversal component `d` of `s` with no line terminator before it. -/
def SeenAt (s a d b : JsString) : Prop :=
  s = a ++ (d ++ b) ∧ isDots d = true ∧ (a = [] ∨ a.getLast? = some slash) ∧
    (b = [] ∨ b.head? = some slash) ∧ a.any isLineTerminator = false

theorem slash_notMem_dots {d : JsString} (h : isDots d = true) : slash ∉ d := by
  simp only [isDots, Bool.or_eq_true, beq_iff_eq] at h
  rcases h with rfl | rfl <;> decide

/-- The lookahead's walk over the components finds exactly the seen traversals. -/
theorem exposesTraversal_iff (s : JsString) :
    exposesTraversal (s.splitOn slash) = true ↔ ∃ a d b, SeenAt s a d b := by
  induction s using split_induction slash with
  | clean s hmem =>
      rw [List.splitOn_eq_singleton hmem]
      simp only [exposesTraversal, Bool.and_false, Bool.or_false]
      constructor
      · intro hd
        exact ⟨[], s, [], by simp, hd, .inl rfl, .inl rfl, rfl⟩
      · rintro ⟨a, d, b, rfl, hd, ha, hb, -⟩
        simp only [List.mem_append, not_or] at hmem
        obtain rfl : a = [] := ha.resolve_right fun h => hmem.1 (List.mem_of_getLast? h)
        obtain rfl : b = [] := hb.resolve_right fun h => hmem.2.2 (List.mem_of_head? h)
        simpa using hd
  | split c r hc ihr =>
      rw [List.splitOn_append_cons_self_of_not_mem hc, exposesTraversal, Bool.or_eq_true,
        Bool.and_eq_true, Bool.not_eq_true', ihr]
      constructor
      · rintro (hd | ⟨hclean, a, d, b, rfl, hd, ha, hb, hlt⟩)
        · exact ⟨[], c, slash :: r, rfl, hd, .inl rfl, .inr rfl, rfl⟩
        · refine ⟨c ++ slash :: a, d, b, by simp, hd, .inr ?_, hb, ?_⟩
          · rcases ha with rfl | ha
            · simp
            · rw [List.getLast?_append_of_ne_nil _ (by simp), List.getLast?_cons, ha]
              rfl
          · rw [List.any_append, hclean, List.any_cons, hlt]
            rfl
      · rintro ⟨a, d, b, heq, hd, ha, hb, hlt⟩
        rcases ha with rfl | ha
        · -- nothing before it: the traversal is the first component
          refine .inl ?_
          rw [List.nil_append] at heq
          rcases hb with rfl | hb
          · rw [List.append_nil] at heq
            exact absurd (heq ▸ List.mem_append_right c List.mem_cons_self) (slash_notMem_dots hd)
          · obtain ⟨b', rfl⟩ := List.head?_eq_some_iff.mp hb
            have hfirst := congrArg (List.splitOn slash) heq
            rw [List.splitOn_append_cons_self_of_not_mem hc,
              List.splitOn_append_cons_self_of_not_mem (slash_notMem_dots hd)] at hfirst
            rw [(List.cons.inj hfirst).1]
            exact hd
        · -- otherwise `a` holds the first slash
          obtain ⟨c', a', rfl, hc'⟩ :=
            List.eq_append_cons_of_mem (List.mem_of_getLast? ha)
          have hfirst := congrArg (List.splitOn slash) heq
          rw [List.append_assoc, List.cons_append,
            List.splitOn_append_cons_self_of_not_mem hc,
            List.splitOn_append_cons_self_of_not_mem hc'] at hfirst
          obtain ⟨rfl, hrest⟩ := List.cons.inj hfirst
          have hr : r = a' ++ (d ++ b) :=
            calc r = [slash].intercalate (r.splitOn slash) := (List.intercalate_splitOn slash).symm
              _ = [slash].intercalate ((a' ++ (d ++ b)).splitOn slash) := by rw [hrest]
              _ = a' ++ (d ++ b) := List.intercalate_splitOn slash
          rw [List.any_append, List.any_cons, Bool.or_eq_false_iff, Bool.or_eq_false_iff] at hlt
          refine .inr ⟨hlt.1, a', d, b, hr, hd, ?_, hb, hlt.2.2⟩
          rw [List.getLast?_append_of_ne_nil _ (by simp), List.getLast?_cons] at ha
          cases hl : a'.getLast? with
          | none => exact .inl (List.getLast?_eq_none_iff.mp hl)
          | some x =>
              rw [hl] at ha
              exact .inr ha

/-- `\.{1,2}(?:\/|$)` from `k`: one or two periods, then a slash or the end. -/
theorem mem_ends_dots (s : JsString) (k : Nat) (hk : k ≤ s.length) :
    (∃ j, j ∈ ends (cat (cat (sym period) (alt (sym period) (look fun _ _ => true)))
        (alt (sym slash) endAnchor)) s k) ↔
      ∃ d b, s.drop k = d ++ b ∧ isDots d = true ∧ (b = [] ∨ b.head? = some slash) := by
  -- both sides speak of the text from `k` on
  have hat : ∀ n, s[k + n]? = (s.drop k)[n]? := fun n => by rw [List.getElem?_drop]
  have hlen : ∀ n, k + n = s.length ↔ n = (s.drop k).length := fun n => by
    rw [List.length_drop]; omega
  have hone : s[k]? = (s.drop k)[0]? := hat 0
  simp only [sym, endAnchor, mem_ends_cat, mem_ends_alt, mem_ends_one, mem_ends_look, beq_iff_eq,
    and_true]
  generalize s.drop k = u at hat hlen hone
  constructor
  · rintro ⟨j, e, ⟨m, ⟨rfl, c, hc, rfl⟩, he⟩, hj⟩
    rw [hone] at hc
    have hend : ∀ n, e = k + n → u[n]? = some slash ∨ n = u.length := by
      rintro n rfl
      rcases hj with ⟨-, c, hc, rfl⟩ | ⟨-, heq⟩
      · exact .inl (hat n ▸ hc)
      · exact .inr ((hlen n).mp heq)
    rcases he with ⟨rfl, c, hc', rfl⟩ | rfl
    · rw [hat 1] at hc'
      match u, hc, hc', hend 2 rfl with
      | a :: b :: rest, hc, hc', hend =>
          obtain rfl : a = period := by simpa using hc
          obtain rfl : b = period := by simpa using hc'
          refine ⟨[period, period], rest, rfl, by decide, ?_⟩
          rcases hend with h | h
          · exact .inr (by simpa [List.head?_eq_getElem?] using h)
          · exact .inl (List.eq_nil_of_length_eq_zero (by simp only [List.length_cons] at h; omega))
    · match u, hc, hend 1 rfl with
      | a :: rest, hc, hend =>
          obtain rfl : a = period := by simpa using hc
          refine ⟨[period], rest, rfl, by decide, ?_⟩
          rcases hend with h | h
          · exact .inr (by simpa [List.head?_eq_getElem?] using h)
          · exact .inl (List.eq_nil_of_length_eq_zero (by simp only [List.length_cons] at h; omega))
  · rintro ⟨d, b, rfl, hd, hb⟩
    have hend : ∀ n, n = d.length → ((d ++ b)[n]? = some slash ∨ n = (d ++ b).length) := by
      rintro n rfl
      rcases hb with rfl | hb
      · exact .inr (by simp)
      · refine .inl ?_
        rw [List.getElem?_append_right (Nat.le_refl _), Nat.sub_self, ← List.head?_eq_getElem?, hb]
    have hstop : ∀ n, n = d.length → ∃ j, (j = k + n + 1 ∧ ∃ c, s[k + n]? = some c ∧ c = slash) ∨
        j = k + n ∧ k + n = s.length := by
      intro n hn
      rcases hend n hn with h | h
      · exact ⟨_, .inl ⟨rfl, slash, (hat n).trans h, rfl⟩⟩
      · exact ⟨_, .inr ⟨rfl, (hlen n).mpr h⟩⟩
    simp only [isDots, Bool.or_eq_true, beq_iff_eq] at hd
    rcases hd with rfl | rfl
    · obtain ⟨j, hj⟩ := hstop 1 rfl
      exact ⟨j, k + 1, ⟨k + 1, ⟨rfl, period, hone, rfl⟩, .inr rfl⟩, hj⟩
    · obtain ⟨j, hj⟩ := hstop 2 rfl
      exact ⟨j, k + 2, ⟨k + 1, ⟨rfl, period, hone, rfl⟩, .inl ⟨rfl, period, hat 1, rfl⟩⟩, hj⟩

/-- **The second lookahead** finds exactly the exposed traversal components. -/
theorem traversalAhead_iff (s : JsString) :
    (∃ j, j ∈ ends traversalAhead s 0) ↔ exposesTraversal (s.splitOn slash) = true := by
  rw [exposesTraversal_iff]
  have hscan : ∀ m, m ∈ ends (star true anyUnit) s 0 ↔
      m ≤ s.length ∧ (s.take m).any isLineTerminator = false := by
    intro m
    rw [anyUnit, mem_ends_star_one (Nat.zero_le _)]
    refine ⟨fun ⟨_, hm, h⟩ => ⟨hm, ?_⟩, fun ⟨hm, h⟩ => ⟨Nat.zero_le _, hm, fun k _ hk => ?_⟩⟩
    · refine List.any_eq_false.mpr fun x hx => ?_
      obtain ⟨n, hn⟩ := List.mem_iff_getElem?.mp hx
      have hlt := (List.getElem?_eq_some_iff.mp hn).1
      rw [List.length_take] at hlt
      rw [List.getElem?_take_of_lt (by omega)] at hn
      obtain ⟨c, hc, hcl⟩ := h n (Nat.zero_le _) (by omega)
      rw [hn] at hc
      simpa [Option.some.inj hc] using hcl
    · refine ⟨s[k], List.getElem?_eq_getElem _, ?_⟩
      have hmem : s[k] ∈ s.take m :=
        List.mem_iff_getElem?.mpr ⟨k, by rw [List.getElem?_take_of_lt hk, List.getElem?_eq_getElem]⟩
      simpa using List.any_eq_false.mp h _ hmem
  have hstart : ∀ m k, k ∈ ends (alt startAnchor (sym slash)) s m ↔
      (k = m ∧ m = 0) ∨ (k = m + 1 ∧ s[m]? = some slash) := by
    intro m k
    simp [startAnchor, sym, mem_ends_alt, mem_ends_look, mem_ends_one]
  constructor
  · rintro ⟨j, hj⟩
    rw [traversalAhead, mem_ends_cat] at hj
    obtain ⟨m, hm, hj⟩ := hj
    obtain ⟨hle, hlt⟩ := (hscan m).mp hm
    rw [mem_ends_cat] at hj
    obtain ⟨k, hk, hj⟩ := hj
    rcases (hstart m k).mp hk with ⟨rfl, rfl⟩ | ⟨rfl, hslash⟩
    · obtain ⟨d, b, heq, hd, hb⟩ := (mem_ends_dots s 0 (Nat.zero_le _)).mp ⟨j, hj⟩
      exact ⟨[], d, b, by simpa using heq, hd, .inl rfl, hb, rfl⟩
    · have hlt' := (List.getElem?_eq_some_iff.mp hslash).1
      obtain ⟨d, b, heq, hd, hb⟩ := (mem_ends_dots s (m + 1) hlt').mp ⟨j, hj⟩
      have htake : s.take (m + 1) = s.take m ++ [slash] := by
        rw [List.take_add_one, hslash]
        rfl
      refine ⟨s.take (m + 1), d, b, by rw [← heq, List.take_append_drop], hd, .inr ?_, hb, ?_⟩
      · rw [htake]
        simp
      · rw [htake, List.any_append, hlt]
        decide
  · rintro ⟨a, d, b, rfl, hd, ha, hb, hlt⟩
    have hdrop : (a ++ (d ++ b)).drop a.length = d ++ b := List.drop_left
    obtain ⟨j, hj⟩ := (mem_ends_dots (a ++ (d ++ b)) a.length (by simp)).mpr
      ⟨d, b, hdrop, hd, hb⟩
    -- the scan stops at the start, or right before the slash that ends `a`
    have hreach : ∃ m, m ∈ ends (star true anyUnit) (a ++ (d ++ b)) 0 ∧
        a.length ∈ ends (alt startAnchor (sym slash)) (a ++ (d ++ b)) m := by
      rcases ha with rfl | ha
      · exact ⟨0, (hscan 0).mpr ⟨Nat.zero_le _, by simp⟩, (hstart 0 _).mpr (.inl ⟨rfl, rfl⟩)⟩
      · obtain ⟨a', rfl⟩ := List.getLast?_eq_some_iff.mp ha
        rw [List.any_append, Bool.or_eq_false_iff] at hlt
        refine ⟨a'.length, (hscan _).mpr ⟨by simp, ?_⟩, (hstart _ _).mpr (.inr ⟨by simp, ?_⟩)⟩
        · rw [List.append_assoc, List.take_left]
          exact hlt.1
        · simp
    obtain ⟨m, hm, hk⟩ := hreach
    exact ⟨j, mem_ends_cat.mpr ⟨m, hm, mem_ends_cat.mpr ⟨a.length, hk, hj⟩⟩⟩

/-! ## §5 — the verdict of the schema. -/

/-- **What the expression accepts**: components to the end, and no exposed traversal. The first
lookahead adds nothing, since a component never starts with a slash. -/
theorem pathRegex_iff (s : JsString) :
    pathRegex.test s = true ↔ Components s ∧ exposesTraversal (s.splitOn slash) = false := by
  rw [test_iff, ← componentsToEnd_iff, Bool.eq_false_iff, Ne, ← traversalAhead_iff]
  constructor
  · rintro ⟨i, -, j, hj⟩
    simp only [pathRegex, startAnchor, mem_ends_cat, mem_ends_look, mem_ends_notAhead, beq_iff_eq]
      at hj
    obtain ⟨_, ⟨rfl, rfl⟩, _, ⟨rfl, -⟩, _, ⟨rfl, hno⟩, hj⟩ := hj
    exact ⟨⟨j, hj⟩, fun ⟨k, hk⟩ => hno k hk⟩
  · rintro ⟨⟨j, hj⟩, hno⟩
    have hfirst : ∀ k, k ∉ ends (sym slash) s 0 := by
      intro k hk
      obtain ⟨-, c, hc, hcs⟩ := mem_ends_one.mp hk
      obtain rfl : c = slash := by simpa using hcs
      obtain ⟨m, hm, -⟩ := mem_ends_cat.mp hj
      obtain ⟨_, hone, -⟩ := mem_ends_cat.mp hm
      obtain ⟨-, c, hc', hu⟩ := mem_ends_one.mp hone
      rw [hc] at hc'
      rw [← Option.some.inj hc', pathUnit_slash] at hu
      cases hu
    refine ⟨0, Nat.zero_le _, j, ?_⟩
    simp only [pathRegex, startAnchor, mem_ends_cat, mem_ends_look, mem_ends_notAhead, beq_iff_eq]
    exact ⟨0, ⟨rfl, trivial⟩, 0, ⟨rfl, hfirst⟩, 0, ⟨rfl, fun k hk => hno ⟨k, hk⟩⟩, hj⟩

theorem components_iff_shape (s : JsString) :
    Components s ↔ s ≠ [] ∧ (∀ c ∈ s, c ≠ 0 ∧ c ≠ 0x5c ∧ c ≠ 0x0d ∧ c ≠ 0x0a) ∧
      ∀ comp ∈ s.splitOn slash, comp ≠ [] := by
  have hunit : ∀ u, pathUnit u = true ↔
      (u ≠ 0 ∧ u ≠ 0x5c ∧ u ≠ 0x0d ∧ u ≠ 0x0a) ∧ u ≠ slash := by
    intro u
    simp [pathUnit, and_assoc]
  rw [components_iff]
  constructor
  · intro h
    refine ⟨?_, fun c hc => ?_, fun comp hcomp => (h comp hcomp).1⟩
    · rintro rfl
      exact (h [] (by simp)).1 rfl
    · by_cases hs : c = slash
      · subst hs
        decide
      · obtain ⟨comp, hcomp, hcc⟩ := mem_splitOn_of_mem hc hs
        exact ((hunit c).mp ((h comp hcomp).2 c hcc)).1
  · rintro ⟨-, hu, hne⟩ comp hcomp
    refine ⟨hne comp hcomp, fun u huc => (hunit u).mpr ?_⟩
    obtain ⟨hus, hns⟩ := of_mem_splitOn hcomp u huc
    exact ⟨hu u hus, hns⟩

/-- **The schema's verdict**: well shaped, and no traversal that the lookahead can see. -/
theorem pathSchema_iff (s : JsString) :
    pathSchema s = true ↔ WellShaped s ∧ exposesTraversal (s.splitOn slash) = false := by
  simp only [pathSchema, Bool.and_eq_true, decide_eq_true_eq, pathRegex_iff, components_iff_shape]
  constructor
  · rintro ⟨⟨h1, h2⟩, ⟨-, hu, hc⟩, hx⟩
    exact ⟨⟨⟨h1, h2⟩, hu, hc⟩, hx⟩
  · rintro ⟨⟨⟨h1, h2⟩, hu, hc⟩, hx⟩
    exact ⟨⟨h1, h2⟩, ⟨fun e => by simp [e] at h1, hu, hc⟩, hx⟩

theorem pathGrammar_iff (s : JsString) :
    PathGrammar s ↔ WellShaped s ∧ ∀ comp ∈ s.splitOn slash, isDots comp = false := by
  have hd : ∀ comp, isDots comp = false ↔ comp ≠ [period] ∧ comp ≠ [period, period] := by
    intro comp
    simp [isDots]
  simp only [hd]
  exact ⟨fun h => ⟨h.toWellShaped, h.noTraversal⟩, fun h => ⟨h.1, h.2⟩⟩

/-- The lookahead sees only components that are there. -/
theorem exposesTraversal_mem {comps : List JsString} (h : exposesTraversal comps = true) :
    ∃ comp ∈ comps, isDots comp = true := by
  induction comps with
  | nil => simp [exposesTraversal] at h
  | cons c cs ih =>
      rw [exposesTraversal, Bool.or_eq_true, Bool.and_eq_true] at h
      rcases h with hd | ⟨-, h⟩
      · exact ⟨c, List.mem_cons_self, hd⟩
      · obtain ⟨comp, hcomp, hd⟩ := ih h
        exact ⟨comp, List.mem_cons_of_mem _ hcomp, hd⟩

/-- The strings the schema gets wrong: well shaped, with a `.` or `..` component, every such
component standing behind a U+2028 or U+2029. -/
def HidesTraversal (s : JsString) : Prop :=
  WellShaped s ∧ (∃ comp ∈ s.splitOn slash, isDots comp = true) ∧
    exposesTraversal (s.splitOn slash) = false

/-- The schema and the grammar agree on a string exactly when it hides no traversal. -/
theorem pathSchema_agrees_iff (s : JsString) :
    (pathSchema s = true ↔ PathGrammar s) ↔ ¬ HidesTraversal s := by
  rw [pathSchema_iff, pathGrammar_iff]
  constructor
  · rintro hagree ⟨hshape, ⟨comp, hcomp, hd⟩, hx⟩
    have := (hagree.mp ⟨hshape, hx⟩).2 comp hcomp
    rw [hd] at this
    cases this
  · intro hno
    constructor
    · rintro ⟨hshape, hx⟩
      refine ⟨hshape, fun comp hcomp => Bool.eq_false_iff.mpr fun hd => ?_⟩
      exact hno ⟨hshape, ⟨comp, hcomp, hd⟩, hx⟩
    · rintro ⟨hshape, hall⟩
      refine ⟨hshape, Bool.eq_false_iff.mpr fun hx => ?_⟩
      obtain ⟨comp, hcomp, hd⟩ := exposesTraversal_mem hx
      rw [hall comp hcomp] at hd
      cases hd

/-! ## §6 — the worker's `valid_path` follows the grammar. -/

/-- On the UTF-8 side the grammar is decided correctly: the split sees every component. -/
theorem validPath_iff (cs : Str) (hlen : utf8Len cs ≤ 4096) :
    validPath cs = true ↔ PathGrammar (encode cs) := by
  have hsplit : (encode cs).splitOn slash = (cs.splitOn '/').map encode :=
    show (encode cs).splitOn (unit '/') = _ from splitOn_encode (by decide) cs
  have hle := length_encode_le cs
  have hchar : ∀ c : Char, c.toNat < 0xD800 → (unit c ∈ encode cs ↔ c ∈ cs) :=
    fun c hc => unit_mem_encode hc
  have hunits : (∀ u ∈ encode cs, u ≠ 0 ∧ u ≠ 0x5c ∧ u ≠ 0x0d ∧ u ≠ 0x0a) ↔
      ('\x00' ∉ cs ∧ '\\' ∉ cs ∧ '\r' ∉ cs ∧ '\n' ∉ cs) := by
    rw [← hchar '\x00' (by decide), ← hchar '\\' (by decide), ← hchar '\r' (by decide),
      ← hchar '\n' (by decide), show unit '\x00' = 0 from rfl, show unit '\\' = 0x5c from rfl,
      show unit '\r' = 0x0d from rfl, show unit '\n' = 0x0a from rfl]
    constructor
    · intro h
      exact ⟨fun hm => (h _ hm).1 rfl, fun hm => (h _ hm).2.1 rfl, fun hm => (h _ hm).2.2.1 rfl,
        fun hm => (h _ hm).2.2.2 rfl⟩
    · rintro ⟨h1, h2, h3, h4⟩ u hu
      exact ⟨fun e => h1 (e ▸ hu), fun e => h2 (e ▸ hu), fun e => h3 (e ▸ hu), fun e => h4 (e ▸ hu)⟩
  have hempty : 1 ≤ (encode cs).length ↔ cs ≠ [] := by
    rw [Nat.one_le_iff_ne_zero, Ne, List.length_eq_zero_iff, encode_eq_nil]
  have hdots : ∀ c : Str, isDots (encode c) = false ↔ c ≠ ['.'] ∧ c ≠ ['.', '.'] := by
    intro c
    have h1 : encode c = [period] ↔ c = ['.'] := encode_injective.eq_iff' rfl
    have h2 : encode c = [period, period] ↔ c = ['.', '.'] := encode_injective.eq_iff' rfl
    simp [isDots, h1, h2]
  -- the checks of the worker one by one, in the words of the grammar
  rw [pathGrammar_iff, hsplit]
  constructor
  · intro h
    simp only [validPath, Bool.and_eq_true, Bool.not_eq_true', List.isEmpty_eq_false_iff,
      decide_eq_true_eq, List.any_eq_false, List.all_eq_true, bne_iff_ne, ne_eq, Bool.or_eq_true,
      beq_iff_eq, not_or] at h
    obtain ⟨⟨⟨hne, -⟩, hc⟩, hcomp⟩ := h
    refine ⟨⟨⟨hempty.mpr hne, by omega⟩, hunits.mpr ?_, ?_⟩, ?_⟩
    · exact ⟨fun hm => (hc _ hm).1.1.1 rfl, fun hm => (hc _ hm).2 rfl, fun hm => (hc _ hm).1.1.2 rfl,
        fun hm => (hc _ hm).1.2 rfl⟩
    · rw [hsplit]
      intro comp hm
      obtain ⟨c, hcm, rfl⟩ := List.mem_map.mp hm
      exact fun e => (hcomp c hcm).1.1 (encode_eq_nil.mp e)
    · intro comp hm
      obtain ⟨c, hcm, rfl⟩ := List.mem_map.mp hm
      exact (hdots c).mpr ⟨(hcomp c hcm).1.2, (hcomp c hcm).2⟩
  · rintro ⟨⟨hl, hu, hcomp⟩, hd⟩
    obtain ⟨h0, hb, hr, hn⟩ := hunits.mp hu
    simp only [validPath, Bool.and_eq_true, Bool.not_eq_true', List.isEmpty_eq_false_iff,
      decide_eq_true_eq, List.any_eq_false, List.all_eq_true, bne_iff_ne, ne_eq, Bool.or_eq_true,
      beq_iff_eq, not_or]
    refine ⟨⟨⟨hempty.mp hl.1, hlen⟩, fun c hc => ⟨⟨⟨?_, ?_⟩, ?_⟩, ?_⟩⟩, fun c hc => ?_⟩
    · exact fun e => h0 (e ▸ hc)
    · exact fun e => hr (e ▸ hc)
    · exact fun e => hn (e ▸ hc)
    · exact fun e => hb (e ▸ hc)
    · have hm : encode c ∈ (cs.splitOn '/').map encode := List.mem_map_of_mem hc
      have hdc := (hdots c).mp (hd _ hm)
      exact ⟨⟨fun e => hcomp (encode c) (hsplit ▸ hm) (encode_eq_nil.mpr e), hdc.1⟩, hdc.2⟩

/-- **The path schema against the path grammar.** On every string the schema's verdict is the
grammar's exactly when the string hides no traversal behind U+2028 or U+2029; and where the string is
well formed with at most 4096 UTF-8 bytes, the schema agrees with the worker's `valid_path` under the
same condition. -/
theorem pathSchema_meets_grammar (s : JsString) :
    ((pathSchema s = true ↔ PathGrammar s) ↔ ¬ HidesTraversal s) ∧
      ∀ cs : Str, s = encode cs → utf8Len cs ≤ 4096 →
        (pathSchema s = validPath cs ↔ ¬ HidesTraversal s) := by
  refine ⟨pathSchema_agrees_iff s, fun cs hs hlen => ?_⟩
  subst hs
  rw [← pathSchema_agrees_iff, ← validPath_iff cs hlen, Bool.eq_iff_iff]

theorem pathSchema_meets_grammar_parent :
    (pathSchema (encode "src/..".toList) = true ↔ PathGrammar (encode "src/..".toList)) ∧
      pathSchema (encode "src/..".toList) = validPath "src/..".toList := by
  have hlen : utf8Len "src/..".toList ≤ 4096 := by decide
  have hplain : ¬ HidesTraversal (encode "src/..".toList) := by
    rintro ⟨-, -, hx⟩
    exact absurd hx (by decide)
  obtain ⟨hgrammar, hworker⟩ := pathSchema_meets_grammar (encode "src/..".toList)
  exact ⟨hgrammar.mpr hplain, (hworker _ rfl hlen).mpr hplain⟩

/-- A leading U+2028 hides the traversal: the schema accepts, the grammar and the worker do not. -/
theorem pathSchema_accepts_hidden_parent :
    pathSchema (encode "\u2028/..".toList) = true ∧ ¬ PathGrammar (encode "\u2028/..".toList) ∧
      validPath "\u2028/..".toList = false := by
  refine ⟨by decide, fun h => ?_, by decide⟩
  exact (h.noTraversal [period, period] (by decide)).2 rfl

end JevGrep.Contracts
