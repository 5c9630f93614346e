/-
# `JevGrep.Worker.RegexGuard` — accepted regexes against line-oriented matching.

`search` compiles a regex with `multi_line(true)` and `line_terminator(b'\n')` and runs it over the
WHOLE buffer of a captured file; `validate` is the only thing that keeps the pattern line-oriented.
This module models the part of the regex-syntax grammar the guard is about: flag groups at any depth,
the anchors `^` and `$`, the whole-buffer anchors `\A` and `\z`, what `x` mode skips (between two
expressions, and between a parenthesis and what it opens), and everything that can stand around them. The
remaining atoms (literals, escapes, `.`, classes, word boundaries) enter with their spelling and their
meaning, which the terminator setting makes line-local.

* §1 the grammar and its spelling; §2 the flags in force and the translation, with the flag state threaded
  as the regex-syntax translator threads it; §3 what "line-oriented" asks of a pattern; §4 what the guard's
  substrings exclude; §5 the guard is right exactly on the patterns in which every flag group that lists
  `m` behind its dash is spelled `(?-`.
-/
import JevGrep.Lib.Regex
import JevGrep.Worker.Types

namespace JevGrep.Worker

open JevGrep.Lib.Regex
open JevGrep.Lib.Regex.Rx

/-- The line terminator byte. -/
def LF : UInt8 := 0x0a
/-- Carriage return. -/
def CR : UInt8 := 0x0d

/-! ## §1 — the grammar and its spelling. -/

/-- The flags of regex-syntax. -/
inductive Flag where
  | caseInsensitive | multiLine | dotMatchesNewLine | swapGreed | unicode | crlf | ignoreWhitespace
  deriving DecidableEq, Repr

/-- The letter of a flag. -/
def Flag.spelling : Flag → Char
  | .caseInsensitive => 'i'
  | .multiLine => 'm'
  | .dotMatchesNewLine => 's'
  | .swapGreed => 'U'
  | .unicode => 'u'
  | .crlf => 'R'
  | .ignoreWhitespace => 'x'

/-- The flags in force at a point of the pattern. -/
abbrev Flags := Flag → Bool

/-- `char::is_whitespace`. -/
def isWhitespace (c : Char) : Bool :=
  (0x09 ≤ c.toNat && c.toNat ≤ 0x0d) || (0x2000 ≤ c.toNat && c.toNat ≤ 0x200a)
    || [0x20, 0x85, 0xa0, 0x1680, 0x2028, 0x2029, 0x202f, 0x205f, 0x3000].contains c.toNat

/-- White space and comments; a comment starts at a `#` and ends behind the next LF. -/
def blankFrom : (comment : Bool) → Str → Bool
  | _, [] => true
  | true, c :: rest => blankFrom (c != '\n') rest
  | false, c :: rest => if c = '#' then blankFrom true rest else isWhitespace c && blankFrom false rest

/-- What `bump_space` skips in `x` mode. -/
structure Gap where
  spelling : Str
  blank : blankFrom false spelling = true
  deriving DecidableEq

/-- No blanks at all. -/
def Gap.none : Gap := ⟨[], rfl⟩

/-- `(?on-off` of a flag group, with what stands between the parenthesis and the question mark;
`off = none` is a group without a dash. -/
structure FlagSwitch where
  gap : Gap
  on : List Flag
  off : Option (List Flag)
  deriving DecidableEq

namespace FlagSwitch

/-- The flags that are switched off. -/
def offFlags (s : FlagSwitch) : List Flag := s.off.getD []

/-- The text of a switch, without what closes it. -/
def spelling (s : FlagSwitch) : Str :=
  '(' :: s.gap.spelling ++ '?' :: s.on.map Flag.spelling ++
    match s.off with
    | none => []
    | some off => '-' :: off.map Flag.spelling

/-- The flags inside or behind the group. -/
def apply (s : FlagSwitch) (f : Flags) : Flags := fun g =>
  if g ∈ s.offFlags then false else if g ∈ s.on then true else f g

/-- The dash does not follow `(?` at once. -/
def Spread (s : FlagSwitch) : Prop := s.gap.spelling ≠ [] ∨ s.on ≠ []

instance (s : FlagSwitch) : Decidable s.Spread := inferInstanceAs (Decidable (_ ∨ _))

end FlagSwitch

/-- The characters that are no literals. -/
def metaCharacters : List Char := ['\\', '.', '^', '$', '(', ')', '|', '[', '?', '*', '+', '{']

/-- How an atom is spelled. -/
inductive Token where
  | literal (c : Char) (plain : c ∉ metaCharacters)
  | dot
  /-- `\d`, `\x41`, `\p{Greek}`, `\b{start}` and so on; `\A` and `\z` are no atoms. -/
  | escape (c : Char) (argument : Str) (inner : c ≠ 'A' ∧ c ≠ 'z') (flat : '(' ∉ argument)
  /-- A class, between its brackets. -/
  | bracketed (content : Str)

/-- A token, character by character. -/
def Token.spelling : Token → Str
  | literal c _ => [c]
  | dot => ['.']
  | escape c argument _ _ => '\\' :: c :: argument
  | bracketed content => '[' :: content ++ [']']

/-- A literal, an escape, `.`, a class or a word boundary: how it is spelled and what it matches under
given flags. `line_terminator(b'\n')` removes the LF from every one of them. -/
structure Atom where
  token : Token
  meaning : Flags → Rx UInt8
  lineLocal : ∀ f, LineLocal LF (meaning f)

/-- `*`, `+`, `?`, `{m,n}` and their lazy forms, with what `x` mode skips before and in them. -/
structure Repetition where
  spelling : Str
  least : Nat
  most : Option Nat
  greedy : Bool

/-- What opens a capturing group, behind its parenthesis: nothing, `?P<name>` or `?<name>`. -/
inductive Opening where
  | unnamed
  | named (p : Bool) (name : Str) (ends : '>' ∉ name)

/-- What stands behind the parenthesis and what `x` mode skips there. -/
def Opening.spelling : Opening → Str
  | unnamed => []
  | named p name _ => '?' :: (if p then ['P'] else []) ++ '<' :: name ++ ['>']

/-- A pattern of regex-syntax, as far as the flags and the anchors are concerned; what an atom matches is left
to the atom. -/
inductive Ast where
  | empty
  /-- Skipped in `x` mode. -/
  | gap (g : Gap)
  | atom (a : Atom)
  | caret
  | dollar
  | textStart
  | textEnd
  | cat (left right : Ast)
  | alt (left right : Ast)
  | rep (body : Ast) (r : Repetition)
  | group (g : Gap) (opening : Opening) (body : Ast)
  | setFlags (s : FlagSwitch)
  | flagGroup (s : FlagSwitch) (body : Ast)

namespace Ast

/-- A pattern, character by character. -/
def spelling : Ast → Str
  | empty => []
  | gap g => g.spelling
  | atom a => a.token.spelling
  | caret => ['^']
  | dollar => ['$']
  | textStart => ['\\', 'A']
  | textEnd => ['\\', 'z']
  | cat l r => l.spelling ++ r.spelling
  | alt l r => l.spelling ++ '|' :: r.spelling
  | rep b r => b.spelling ++ r.spelling
  | group g opening b => ('(' :: g.spelling ++ opening.spelling) ++ b.spelling ++ [')']
  | setFlags s => s.spelling ++ [')']
  | flagGroup s b => s.spelling ++ ':' :: b.spelling ++ [')']

/-- The flag groups of a pattern, at any depth. -/
def switches : Ast → List FlagSwitch
  | empty | gap _ | atom _ | caret | dollar | textStart | textEnd => []
  | cat l r | alt l r => l.switches ++ r.switches
  | rep b _ | group _ _ b => b.switches
  | setFlags s => [s]
  | flagGroup s b => s :: b.switches

/-- `\A` or `\z` occurs, at any depth. -/
def hasTextAnchor : Ast → Bool
  | textStart | textEnd => true
  | empty | gap _ | atom _ | caret | dollar | setFlags _ => false
  | cat l r | alt l r => l.hasTextAnchor || r.hasTextAnchor
  | rep b _ | group _ _ b | flagGroup _ b => b.hasTextAnchor

/-! ## §2 — the flags in force, and the translation. -/

/-- The flags behind an expression: a flag directive holds to the end of its group. -/
def flagsAfter : Ast → Flags → Flags
  | setFlags s, f => s.apply f
  | cat l r, f | alt l r, f => r.flagsAfter (l.flagsAfter f)
  | rep b _, f => b.flagsAfter f
  | empty, f | gap _, f | atom _, f | caret, f | dollar, f | textStart, f | textEnd, f | group _ _ _, f
  | flagGroup _ _, f => f

/-- The flags in force at each `^` and `$`. -/
def anchorFlags : Ast → Flags → List Flags
  | caret, f | dollar, f => [f]
  | cat l r, f | alt l r, f => l.anchorFlags f ++ r.anchorFlags (l.flagsAfter f)
  | rep b _, f | group _ _ b, f => b.anchorFlags f
  | flagGroup s b, f => b.anchorFlags (s.apply f)
  | empty, _ | gap _, _ | atom _, _ | textStart, _ | textEnd, _ | setFlags _, _ => []

/-- Nothing is skipped without `x`. -/
def allows (f : Flags) (g : Gap) : Bool := f .ignoreWhitespace || g.spelling.isEmpty

/-- White space and comments are skipped in `x` mode, and nowhere else; there a literal is neither. -/
def formed : Ast → Flags → Bool
  | gap g, f => allows f g
  | atom ⟨.literal c _, _, _⟩, f => !(f .ignoreWhitespace && (c == '#' || isWhitespace c))
  | cat l r, f | alt l r, f => l.formed f && r.formed (l.flagsAfter f)
  | rep b _, f => b.formed f
  | group g _ b, f => allows f g && b.formed f
  | setFlags s, f => allows f s.gap
  | flagGroup s b, f => allows f s.gap && b.formed (s.apply f)
  | empty, _ | atom _, _ | caret, _ | dollar, _ | textStart, _ | textEnd, _ => true

end Ast

/-! The look-around assertions of the engine. -/

/-- `\A`, and `^` outside of `m`. -/
def startText : List UInt8 → Nat → Bool := fun _ i => i == 0

/-- `\z`, and `$` outside of `m`. -/
def endText : List UInt8 → Nat → Bool := fun s i => i == s.length

/-- `^` in `m`. -/
def startLF : List UInt8 → Nat → Bool := fun s i => i == 0 || s[i - 1]? == some LF

/-- `$` in `m`. -/
def endLF : List UInt8 → Nat → Bool := fun s i => i == s.length || s[i]? == some LF

/-- After LF, or after a CR that no LF follows. -/
def startCRLF : List UInt8 → Nat → Bool := fun s i =>
  i == 0 || s[i - 1]? == some LF || (s[i - 1]? == some CR && s[i]? != some LF)

/-- Before CR, or before an LF that no CR precedes. -/
def endCRLF : List UInt8 → Nat → Bool := fun s i =>
  i == s.length || s[i]? == some CR || (s[i]? == some LF && (i == 0 || s[i - 1]? != some CR))

/-- What `^` asks under the flags in force. -/
def caretLook (f : Flags) : List UInt8 → Nat → Bool :=
  if f .multiLine then (if f .crlf then startCRLF else startLF) else startText

/-- What `$` asks under the flags in force. -/
def dollarLook (f : Flags) : List UInt8 → Nat → Bool :=
  if f .multiLine then (if f .crlf then endCRLF else endLF) else endText

/-- `n` copies in sequence, before `tail`. -/
def copies (body tail : Rx UInt8) : Nat → Rx UInt8
  | 0 => tail
  | n + 1 => .cat body (copies body tail n)

/-- At most `n` further copies. -/
def upTo (greedy : Bool) (body : Rx UInt8) : Nat → Rx UInt8
  | 0 => .look fun _ _ => true
  | n + 1 =>
      let more := Rx.cat body (upTo greedy body n)
      if greedy then .alt more (.look fun _ _ => true) else .alt (.look fun _ _ => true) more

/-- A counted or unbounded repetition; the flag `U` exchanges greedy and lazy. -/
def repeated (f : Flags) (r : Repetition) (body : Rx UInt8) : Rx UInt8 :=
  let greedy := r.greedy != f .swapGreed
  copies body
    (match r.most with
      | none => .star greedy body
      | some most => upTo greedy body (most - r.least))
    r.least

/-- The expression the engine runs for a pattern under given flags. -/
def Ast.compile : Ast → Flags → Rx UInt8
  | .empty, _ | .gap _, _ | .setFlags _, _ => .look fun _ _ => true
  | .atom a, f => a.meaning f
  | .caret, f => .look (caretLook f)
  | .dollar, f => .look (dollarLook f)
  | .textStart, _ => .look startText
  | .textEnd, _ => .look endText
  | .cat l r, f => .cat (l.compile f) (r.compile (l.flagsAfter f))
  | .alt l r, f => .alt (l.compile f) (r.compile (l.flagsAfter f))
  | .rep b r, f => repeated f r (b.compile f)
  | .group _ _ b, f => b.compile f
  | .flagGroup s b, f => b.compile (s.apply f)

/-- The builder's flags in `search`: `case_insensitive(!r.case_sensitive).multi_line(true)`. -/
def builderFlags (r : Request) : Flags
  | .caseInsensitive => !r.caseSensitive
  | .multiLine | .unicode => true
  | .dotMatchesNewLine | .swapGreed | .crlf | .ignoreWhitespace => false

/-- A reading of the pattern of a request in the grammar. -/
structure Reading (r : Request) where
  ast : Ast
  spelled : r.pattern = ast.spelling
  formed : ast.formed (builderFlags r) = true

/-- The occurrences `search_file` walks through: `find_iter` over the whole buffer, without the
phantom line behind a final LF. -/
def occurrences (r : Request) (ast : Ast) (buffer : Bytes) : List (Nat × Nat) :=
  (findIter (ast.compile (builderFlags r)) buffer).filter fun m => !phantom LF buffer m

/-! ## §3 — line orientation. -/

/-- What an accepted pattern must satisfy for its whole-buffer run to be a line-by-line search. -/
structure LineOriented (r : Request) (ast : Ast) : Prop where
  keepsMultiLine : ∀ s ∈ ast.switches, Flag.multiLine ∉ s.offFlags
  noTextAnchor : ast.hasTextAnchor = false
  lineAnchors : ∀ f ∈ ast.anchorFlags (builderFlags r), f .multiLine = true
  lineByLine : ∀ buffer, buffer ≠ [] →
    occurrences r ast buffer
      = linewise (ast.compile (builderFlags r)) LF 0 (lines LF buffer)

section Looks

variable {pre content tail post : Bytes}

/-- The byte before an inner position of a line is the same in the buffer and on the line. -/
theorem getElem?_before {i : Nat} (h : LineAt LF pre content tail post) (hi : i ≤ content.length)
    (hpos : 0 < i) :
    (pre ++ (content ++ tail) ++ post)[pre.length + i - 1]? = (content ++ tail)[i - 1]? := by
  rw [show pre.length + i - 1 = pre.length + (i - 1) by omega]
  exact h.getElem? (by omega)

/-- Before the first position of a line stands nothing or a terminator. -/
theorem before_line (h : LineAt LF pre content tail post) :
    pre.length = 0 ∨ (pre ++ (content ++ tail) ++ post)[pre.length - 1]? = some LF := by
  rcases h.start with rfl | hlast
  · exact .inl rfl
  · refine .inr ?_
    have hpos : 0 < pre.length := by
      cases pre with
      | nil => simp at hlast
      | cons x xs => simp
    rw [List.append_assoc, List.getElem?_append_left (by omega), ← List.getLast?_eq_getElem?, hlast]

/-- A position of a line is the end of the buffer exactly when it is the end of the line. -/
theorem at_end {i : Nat} (h : LineAt LF pre content tail post) (hi : i ≤ content.length) :
    (pre.length + i == (pre ++ (content ++ tail) ++ post).length)
      = (i == (content ++ tail).length) := by
  rw [Bool.eq_iff_iff, beq_iff_eq, beq_iff_eq]
  rcases h.stop with rfl | ⟨rfl, rfl⟩
  · simp only [List.length_append, List.length_singleton]
    omega
  · simp only [List.length_append, List.length_nil]
    omega

theorem localLook_startLF : LocalLook LF startLF := by
  intro pre content tail post h i hi
  rcases Nat.eq_zero_or_pos i with rfl | hpos
  · rcases before_line h with h0 | hlf
    · simp [startLF, h0]
    · simp only [startLF, Nat.add_zero, hlf, BEq.rfl, Bool.or_true, Bool.true_or]
  · have hne : ¬ pre.length + i = 0 := by omega
    have hne' : ¬ i = 0 := by omega
    simp only [startLF, getElem?_before h hi hpos, beq_false_of_ne hne, beq_false_of_ne hne']

theorem localLook_endLF : LocalLook LF endLF := by
  intro pre content tail post h i hi
  simp only [endLF, h.getElem? hi, at_end h hi]

theorem localLook_startCRLF : LocalLook LF startCRLF := by
  intro pre content tail post h i hi
  rcases Nat.eq_zero_or_pos i with rfl | hpos
  · rcases before_line h with h0 | hlf
    · simp [startCRLF, h0]
    · simp only [startCRLF, Nat.add_zero, hlf, BEq.rfl, Bool.or_true, Bool.true_or]
  · have hne : ¬ pre.length + i = 0 := by omega
    have hne' : ¬ i = 0 := by omega
    simp only [startCRLF, getElem?_before h hi hpos, h.getElem? hi, beq_false_of_ne hne,
      beq_false_of_ne hne']

theorem localLook_endCRLF : LocalLook LF endCRLF := by
  intro pre content tail post h i hi
  rcases Nat.eq_zero_or_pos i with rfl | hpos
  · -- at the start of a line no CR precedes: nothing or an LF does
    have hcr : (pre.length + 0 == 0 ||
        (pre ++ (content ++ tail) ++ post)[pre.length + 0 - 1]? != some CR) = true := by
      rcases before_line h with h0 | hlf
      · simp [h0]
      · rw [Nat.add_zero, hlf]
        simp [LF, CR]
    simp only [endCRLF, h.getElem? hi, hcr, at_end h hi, BEq.rfl, Bool.true_or]
  · have hne : ¬ pre.length + i = 0 := by omega
    have hne' : ¬ i = 0 := by omega
    simp only [endCRLF, getElem?_before h hi hpos, h.getElem? hi, at_end h hi,
      beq_false_of_ne hne, beq_false_of_ne hne']

end Looks

theorem lineLocal_copies {body tail : Rx UInt8} (hb : LineLocal LF body) (ht : LineLocal LF tail)
    (n : Nat) : LineLocal LF (copies body tail n) := by
  induction n with
  | zero => exact ht
  | succ n ih => exact ⟨hb, ih⟩

theorem localLook_true : LocalLook LF (fun _ _ => true) := fun _ _ _ _ _ _ _ => rfl

theorem lineLocal_upTo {greedy : Bool} {body : Rx UInt8} (hb : LineLocal LF body) (n : Nat) :
    LineLocal LF (upTo greedy body n) := by
  induction n with
  | zero => exact localLook_true
  | succ n ih =>
      cases greedy
      · exact ⟨localLook_true, hb, ih⟩
      · exact ⟨⟨hb, ih⟩, localLook_true⟩

theorem lineLocal_repeated {f : Flags} {r : Repetition} {body : Rx UInt8}
    (hb : LineLocal LF body) : LineLocal LF (repeated f r body) := by
  rw [repeated]
  refine lineLocal_copies hb ?_ _
  cases r.most with
  | none => exact hb
  | some most => exact lineLocal_upTo hb _

namespace Ast

/-- With `m` on at the start and never switched off, it is on behind every expression and at every
anchor inside it. -/
theorem multiLine_everywhere (ast : Ast) :
    ∀ f : Flags, f .multiLine = true → (∀ s ∈ ast.switches, Flag.multiLine ∉ s.offFlags) →
      ast.flagsAfter f .multiLine = true ∧ ∀ g ∈ ast.anchorFlags f, g .multiLine = true := by
  have happly : ∀ (s : FlagSwitch) (f : Flags), f .multiLine = true → .multiLine ∉ s.offFlags →
      s.apply f .multiLine = true := by
    intro s f hf hs
    simp [FlagSwitch.apply, hs, hf]
  have hpair : ∀ (l r : Ast) (f : Flags),
      (∀ f, f .multiLine = true → (∀ s ∈ l.switches, Flag.multiLine ∉ s.offFlags) →
        l.flagsAfter f .multiLine = true ∧ ∀ g ∈ l.anchorFlags f, g .multiLine = true) →
      (∀ f, f .multiLine = true → (∀ s ∈ r.switches, Flag.multiLine ∉ s.offFlags) →
        r.flagsAfter f .multiLine = true ∧ ∀ g ∈ r.anchorFlags f, g .multiLine = true) →
      f .multiLine = true → (∀ s ∈ l.switches ++ r.switches, Flag.multiLine ∉ s.offFlags) →
      r.flagsAfter (l.flagsAfter f) .multiLine = true ∧
        ∀ g ∈ l.anchorFlags f ++ r.anchorFlags (l.flagsAfter f), g .multiLine = true := by
    intro l r f ihl ihr hf hs
    obtain ⟨hlf, hla⟩ := ihl f hf fun s h => hs s (List.mem_append_left _ h)
    obtain ⟨hrf, hra⟩ := ihr _ hlf fun s h => hs s (List.mem_append_right _ h)
    exact ⟨hrf, fun g hg => (List.mem_append.mp hg).elim (hla g) (hra g)⟩
  induction ast with
  | empty | gap _ | atom _ | textStart | textEnd => exact fun f hf _ => ⟨hf, nofun⟩
  | caret | dollar =>
      refine fun f hf _ => ⟨hf, fun g hg => ?_⟩
      obtain rfl : g = f := by simpa [anchorFlags] using hg
      exact hf
  | cat l r ihl ihr | alt l r ihl ihr => exact fun f => hpair l r f ihl ihr
  | rep b r ih => exact ih
  | group g opening b ih => exact fun f hf hs => ⟨hf, (ih f hf hs).2⟩
  | setFlags s =>
      exact fun f hf hs => ⟨happly s f hf (hs s List.mem_cons_self), nofun⟩
  | flagGroup s b ih =>
      refine fun f hf hs => ⟨hf, (ih _ (happly s f hf (hs s List.mem_cons_self)) ?_).2⟩
      exact fun t ht => hs t (List.mem_cons_of_mem _ ht)

/-- A pattern without whole-buffer anchors whose `^` and `$` are line anchors compiles to a
line-local expression. -/
theorem lineLocal_compile (ast : Ast) :
    ∀ f : Flags, ast.hasTextAnchor = false → (∀ g ∈ ast.anchorFlags f, g .multiLine = true) →
      LineLocal LF (ast.compile f) := by
  induction ast with
  | empty | gap _ | setFlags _ => exact fun _ _ _ => localLook_true
  | atom a => exact fun f _ _ => a.lineLocal f
  | caret =>
      intro f _ hf
      simp only [compile, LineLocal, caretLook, hf f List.mem_cons_self, if_true]
      split
      · exact localLook_startCRLF
      · exact localLook_startLF
  | dollar =>
      intro f _ hf
      simp only [compile, LineLocal, dollarLook, hf f List.mem_cons_self, if_true]
      split
      · exact localLook_endCRLF
      · exact localLook_endLF
  | textStart | textEnd => exact fun _ h _ => by cases h
  | cat l r ihl ihr | alt l r ihl ihr =>
      intro f ht hf
      obtain ⟨htl, htr⟩ := Bool.or_eq_false_iff.mp ht
      exact ⟨ihl f htl fun g hg => hf g (List.mem_append_left _ hg),
        ihr _ htr fun g hg => hf g (List.mem_append_right _ hg)⟩
  | rep b r ih => exact fun f ht hf => lineLocal_repeated (ih f ht hf)
  | group g opening b ih => exact ih
  | flagGroup s b ih => exact fun f ht hf => ih _ ht hf

/-! ## §4 — what the guard's substrings exclude. -/

/-- Every flag group is spelled out in the pattern. -/
theorem spelling_of_switch {ast : Ast} {s : FlagSwitch} (h : s ∈ ast.switches) :
    s.spelling <:+: ast.spelling := by
  induction ast with
  | empty | gap _ | atom _ | caret | dollar | textStart | textEnd => cases h
  | cat l r ihl ihr =>
      rcases List.mem_append.mp h with h | h
      · exact (ihl h).trans (List.prefix_append _ _).isInfix
      · exact (ihr h).trans (List.suffix_append _ _).isInfix
  | alt l r ihl ihr =>
      rcases List.mem_append.mp h with h | h
      · exact (ihl h).trans (List.prefix_append _ _).isInfix
      · exact (ihr h).trans ((List.suffix_cons _ _).trans (List.suffix_append _ _)).isInfix
  | rep b r ih => exact (ih h).trans (List.prefix_append _ _).isInfix
  | group g opening b ih => exact (ih h).trans ⟨'(' :: g.spelling ++ opening.spelling, [')'], rfl⟩
  | setFlags t =>
      obtain rfl : s = t := by simpa [switches] using h
      exact (List.prefix_append _ _).isInfix
  | flagGroup t b ih =>
      rcases List.mem_cons.mp h with rfl | h
      · exact ⟨[], ':' :: b.spelling ++ [')'], by simp [spelling]⟩
      · exact (ih h).trans ⟨t.spelling ++ [':'], [')'], by simp [spelling]⟩

/-- Every whole-buffer anchor is spelled out in the pattern. -/
theorem spelling_of_textAnchor {ast : Ast} (h : ast.hasTextAnchor = true) :
    ['\\', 'A'] <:+: ast.spelling ∨ ['\\', 'z'] <:+: ast.spelling := by
  have hmono : ∀ {b c : Ast}, b.spelling <:+: c.spelling →
      (['\\', 'A'] <:+: b.spelling ∨ ['\\', 'z'] <:+: b.spelling) →
      (['\\', 'A'] <:+: c.spelling ∨ ['\\', 'z'] <:+: c.spelling) :=
    fun hbc h => h.imp (·.trans hbc) (·.trans hbc)
  induction ast with
  | empty | gap _ | atom _ | caret | dollar | setFlags _ => cases h
  | textStart => exact .inl (List.infix_refl _)
  | textEnd => exact .inr (List.infix_refl _)
  | cat l r ihl ihr =>
      rcases Bool.or_eq_true _ _ |>.mp h with h | h
      · exact hmono (List.prefix_append _ _).isInfix (ihl h)
      · exact hmono (List.suffix_append _ _).isInfix (ihr h)
  | alt l r ihl ihr =>
      rcases Bool.or_eq_true _ _ |>.mp h with h | h
      · exact hmono (List.prefix_append _ _).isInfix (ihl h)
      · exact hmono ((List.suffix_cons _ _).trans (List.suffix_append _ _)).isInfix (ihr h)
  | rep b r ih => exact hmono (List.prefix_append _ _).isInfix (ih h)
  | group g opening b ih => exact hmono ⟨'(' :: g.spelling ++ opening.spelling, [')'], rfl⟩ (ih h)
  | flagGroup t b ih =>
      exact hmono ⟨t.spelling ++ [':'], [')'], by simp [spelling]⟩ (ih h)

end Ast

/-- An accepted regex contains none of the guard's substrings. -/
theorem validate_regex {r : Request} (hk : r.kind = .regex) (hv : validate r = .ok ()) :
    ¬ ['\\', 'A'] <:+: r.pattern ∧ ¬ ['\\', 'z'] <:+: r.pattern ∧
      ¬ ['(', '?', '-'] <:+: r.pattern := by
  have hguard : (contains r.pattern "\\A".toList || contains r.pattern "\\z".toList
      || contains r.pattern "\\Z".toList || contains r.pattern "(?-".toList) = false := by
    simp only [validate] at hv
    split at hv
    · cases hv
    · by_contra hg
      rw [Bool.not_eq_false] at hg
      simp only [hk, hg, decide_true, Bool.and_self, if_true] at hv
      revert hv
      split
      · exact fun h => by cases h
      · split
        · exact fun h => by cases h
        · split <;> exact fun h => by cases h
  simp only [contains, Bool.or_eq_false_iff, decide_eq_false_iff_not] at hguard
  obtain ⟨⟨⟨hA, hz⟩, -⟩, hdash⟩ := hguard
  exact ⟨hA, hz, hdash⟩

/-- A flag group that clears `m` is spread in an accepted regex: otherwise it is spelled `(?-`. -/
theorem spread_of_clears {r : Request} {ast : Ast} (hp : r.pattern = ast.spelling)
    (hdash : ¬ ['(', '?', '-'] <:+: r.pattern) {s : FlagSwitch} (hs : s ∈ ast.switches)
    (hm : Flag.multiLine ∈ s.offFlags) : s.Spread := by
  by_contra hspread
  rw [FlagSwitch.Spread, not_or, not_not, not_not] at hspread
  obtain ⟨hgap, hon⟩ := hspread
  apply hdash
  rw [hp]
  refine List.IsInfix.trans ?_ (Ast.spelling_of_switch hs)
  cases hoff : s.off with
  | none => simp [FlagSwitch.offFlags, hoff] at hm
  | some off =>
      have hsp : s.spelling = ['(', '?', '-'] ++ off.map Flag.spelling := by
        simp [FlagSwitch.spelling, hgap, hon, hoff]
      rw [hsp]
      exact (List.prefix_append _ _).isInfix

/-! ## §5 — the guard is right on exactly these patterns. -/

/-- **The guard against line orientation.** A regex that `validate` accepts is line-oriented, its
whole-buffer run being the line-by-line search on every buffer, if and only if no flag group in it that
switches some flag on, or has something to skip behind its parenthesis, lists `m` among the flags it
switches off: a group that clears `m` has to be spelled `(?-` for the guard to see it. -/
theorem accepted_regex_lineOriented (r : Request) (p : Reading r) (hk : r.kind = .regex)
    (hv : validate r = .ok ()) :
    LineOriented r p.ast ↔ ∀ s ∈ p.ast.switches, s.Spread → Flag.multiLine ∉ s.offFlags := by
  constructor
  · exact fun h s hs _ => h.keepsMultiLine s hs
  · intro h
    obtain ⟨hA, hz, hdash⟩ := validate_regex hk hv
    have hkeep : ∀ s ∈ p.ast.switches, Flag.multiLine ∉ s.offFlags := by
      intro s hs hm
      exact h s hs (spread_of_clears p.spelled hdash hs hm) hm
    have htext : p.ast.hasTextAnchor = false := by
      rw [← Bool.not_eq_true]
      intro ht
      rcases Ast.spelling_of_textAnchor ht with ht | ht
      · exact hA (p.spelled ▸ ht)
      · exact hz (p.spelled ▸ ht)
    have hanchors := (p.ast.multiLine_everywhere (builderFlags r) rfl hkeep).2
    have hlocal := p.ast.lineLocal_compile (builderFlags r) htext hanchors
    exact ⟨hkeep, htext, hanchors, fun buffer hb => findIter_eq_linewise hlocal hb⟩

/-- A literal character in the ASCII range. -/
def Ast.ascii (c : Char) (plain : c ∉ metaCharacters) (h : UInt8.ofNat c.toNat ≠ LF) : Ast :=
  .atom ⟨.literal c plain, fun _ => .one (· == UInt8.ofNat c.toNat), fun _ => beq_eq_false_iff_ne.mpr h.symm⟩

/-- A regex request under the client's default limits. -/
def regexRequest (pattern : Str) : Request where
  v := 1
  id := "q-1".toList
  pattern := pattern
  kind := .regex
  caseSensitive := true
  maxMatches := 100
  maxFileBytes := 1048576
  responseBytes := 65536
  deadlineMs := 10000
  maxEntries := 100000
  maxDepth := 64

/-- `^b` behind a flag group. -/
def Ast.lineOfB (s : FlagSwitch) : Ast :=
  .cat (.setFlags s) (.cat .caret (.ascii 'b' (by decide) (by decide)))

/-- A space. -/
def Gap.space : Gap := ⟨[' '], by decide⟩

/-- `(?x)( ?i-s)^b`. -/
def spacedCaseless : Ast :=
  .cat (.setFlags ⟨.none, [.ignoreWhitespace], none⟩)
    (.lineOfB ⟨.space, [.caseInsensitive], some [.dotMatchesNewLine]⟩)

theorem accepted_regex_lineOriented_spaced :
    validate (regexRequest "(?x)( ?i-s)^b".toList) = .ok () ∧
      LineOriented (regexRequest "(?x)( ?i-s)^b".toList) spacedCaseless := by
  have hv : validate (regexRequest "(?x)( ?i-s)^b".toList) = .ok () := by decide
  refine ⟨hv, (accepted_regex_lineOriented _ ⟨spacedCaseless, by decide, by decide⟩ rfl hv).mpr ?_⟩
  decide

/-- `(?i-m)^b`: the flag group switches `i` on before it clears `m`. -/
def clearedMultiLine : Ast := .lineOfB ⟨.none, [.caseInsensitive], some [.multiLine]⟩

/-- The guard accepts `(?i-m)^b`; on `a⏎b` the whole-buffer run finds nothing, line by line the
second line matches. -/
theorem accepted_regex_clears_multiLine :
    clearedMultiLine.spelling = "(?i-m)^b".toList ∧
      clearedMultiLine.formed (builderFlags (regexRequest clearedMultiLine.spelling)) = true ∧
      validate (regexRequest clearedMultiLine.spelling) = .ok () ∧
      occurrences (regexRequest clearedMultiLine.spelling) clearedMultiLine [0x61, LF, 0x62] = [] ∧
      linewise (clearedMultiLine.compile (builderFlags (regexRequest clearedMultiLine.spelling)))
        LF 0 (lines LF [0x61, LF, 0x62]) = [(2, 3)] ∧
      ¬ LineOriented (regexRequest clearedMultiLine.spelling) clearedMultiLine := by
  refine ⟨by decide, by decide, by decide, by decide, by decide, fun h => ?_⟩
  exact h.keepsMultiLine ⟨.none, [.caseInsensitive], some [.multiLine]⟩ (by decide) (by decide)

/-- `(?x)( ?-m)^b`: in `x` mode a space hides the dash. -/
def spacedMultiLine : Ast :=
  .cat (.setFlags ⟨.none, [.ignoreWhitespace], none⟩) (.lineOfB ⟨.space, [], some [.multiLine]⟩)

example : spacedMultiLine.spelling = "(?x)( ?-m)^b".toList ∧
    spacedMultiLine.formed (builderFlags (regexRequest spacedMultiLine.spelling)) = true ∧
    validate (regexRequest spacedMultiLine.spelling) = .ok () ∧
    occurrences (regexRequest spacedMultiLine.spelling) spacedMultiLine [0x61, LF, 0x62] = [] := by
  decide

end JevGrep.Worker
