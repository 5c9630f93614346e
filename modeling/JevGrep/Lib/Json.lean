/-
# `JevGrep.Lib.Json` — JSON values, their text and back.

Strings are code-unit strings, so that both a UTF-16 and a UTF-8 program can hold them; a member list
keeps its order and its duplicates, so that readers with either convention can be defined over it. A
number is a natural number or any other JSON number by its token.

`print` is the compact form both `JSON.stringify` and `serde_json` write: `"`, `\` and the control
characters escaped, a lone surrogate as `\uXXXX`, everything else literally. `parse` reads the JSON
grammar. The main result is the round trip (`parse_print`); `size` counts the bytes of a printed value
without printing it (`utf8Len_print`).
-/
import JevGrep.Lib.Utf16

namespace JevGrep.Lib

open JevGrep.Lib.Utf16

/-! ## §1 — values. -/

/-- A character that can stand in a number. -/
def isNumberChar (c : Char) : Bool :=
  c.isDigit || c == '+' || c == '-' || c == '.' || c == 'e' || c == 'E'

/-- A run of digits without a leading zero. -/
def isNatToken (token : List Char) : Bool :=
  token.all Char.isDigit && token != [] && (token == ['0'] || token.head? != some '0')

/-- One or more digits off the front. -/
def dropDigits (token : List Char) : Option (List Char) :=
  if token.takeWhile Char.isDigit = [] then none else some (token.dropWhile Char.isDigit)

/-- `[eE][+-]?\d+` or nothing. -/
def isExponent : List Char → Bool
  | [] => true
  | e :: rest =>
      (e == 'e' || e == 'E') &&
        (match rest with
          | '+' :: rest => dropDigits rest == some []
          | '-' :: rest => dropDigits rest == some []
          | rest => dropDigits rest == some [])

/-- `(\.\d+)?` and an exponent. -/
def isFraction : List Char → Bool
  | '.' :: rest =>
      match dropDigits rest with
      | none => false
      | some rest => isExponent rest
  | rest => isExponent rest

/-- The JSON number grammar. -/
def isNumberToken (token : List Char) : Bool :=
  let unsigned := match token with
    | '-' :: rest => rest
    | rest => rest
  isNatToken (unsigned.takeWhile Char.isDigit) && isFraction (unsigned.dropWhile Char.isDigit)

/-- The token of a number that is not a plain natural number. -/
def isRealToken (token : List Char) : Bool :=
  token != [] && token.all isNumberChar && isNumberToken token && !isNatToken token

/-- The text of a number that is not a natural one. -/
abbrev RealToken := { token : List Char // isRealToken token = true }

/-- A JSON value. Objects keep the order and the repetitions of their members. -/
inductive Json where
  | null
  | bool (b : Bool)
  | nat (n : Nat)
  | real (token : RealToken)
  | str (s : List UInt16)
  | arr (items : List Json)
  | obj (members : List (List UInt16 × Json))

/-- A JSON number. -/
inductive JsonNumber where
  | nat (n : Nat)
  | real (token : RealToken)
  deriving DecidableEq

/-- A number as a value. -/
def JsonNumber.json : JsonNumber → Json
  | .nat n => .nat n
  | .real token => .real token

namespace Json

/-! ## §2 — the text. -/

/-- A digit from 0 to 15. -/
def hexDigit (n : Nat) : Char :=
  if n < 10 then Char.ofNat (0x30 + n) else Char.ofNat (0x57 + n)

/-- `\uXXXX`. -/
def escapeUnit (n : Nat) : List Char :=
  ['\\', 'u', hexDigit (n / 4096 % 16), hexDigit (n / 256 % 16), hexDigit (n / 16 % 16),
    hexDigit (n % 16)]

/-- A character inside a string. -/
def escapeChar (c : Char) : List Char :=
  if c = '"' then ['\\', '"']
  else if c = '\\' then ['\\', '\\']
  else if c = '\x08' then ['\\', 'b']
  else if c = '\t' then ['\\', 't']
  else if c = '\n' then ['\\', 'n']
  else if c = '\x0c' then ['\\', 'f']
  else if c = '\r' then ['\\', 'r']
  else if c.toNat < 0x20 then escapeUnit c.toNat
  else [c]

/-- A code point inside a string: a lone surrogate keeps its number. -/
def escapePoint : Point → List Char
  | .scalar c => escapeChar c
  | .lone u => escapeUnit u.toNat

/-- The text between the quotes of a string. -/
def escape (s : List UInt16) : List Char := (points s).flatMap escapePoint

/-- A string with its quotes. -/
def printStr (s : List UInt16) : List Char := '"' :: escape s ++ ['"']

mutual

/-- `JSON.stringify`, without blanks. -/
def print : Json → List Char
  | null => ['n', 'u', 'l', 'l']
  | bool true => ['t', 'r', 'u', 'e']
  | bool false => ['f', 'a', 'l', 's', 'e']
  | nat n => Nat.toDigits 10 n
  | real token => token.val
  | str s => printStr s
  | arr [] => ['[', ']']
  | arr (v :: vs) => '[' :: print v ++ printItems vs
  | obj [] => ['{', '}']
  | obj ((k, v) :: ms) => '{' :: printStr k ++ ':' :: print v ++ printMembers ms

/-- The further items of an array and its closing bracket. -/
def printItems : List Json → List Char
  | [] => [']']
  | v :: vs => ',' :: print v ++ printItems vs

/-- The further members of an object and its closing brace. -/
def printMembers : List (List UInt16 × Json) → List Char
  | [] => ['}']
  | (k, v) :: ms => ',' :: printStr k ++ ':' :: print v ++ printMembers ms

end

/-! ## §3 — the grammar. -/

/-- The blanks of JSON. -/
def isSpace (c : Char) : Bool := c == ' ' || c == '\t' || c == '\n' || c == '\r'

/-- The text behind its leading blanks. -/
def skipSpace (text : List Char) : List Char := text.dropWhile isSpace

/-- The value of a hexadecimal digit. -/
def hexValue (c : Char) : Option Nat :=
  if '0' ≤ c ∧ c ≤ '9' then some (c.toNat - 0x30)
  else if 'a' ≤ c ∧ c ≤ 'f' then some (c.toNat - 0x57)
  else if 'A' ≤ c ∧ c ≤ 'F' then some (c.toNat - 0x37)
  else none

/-- The code unit of four hexadecimal digits. -/
def hexUnit (a b c d : Char) : Option UInt16 := do
  let a ← hexValue a
  let b ← hexValue b
  let c ← hexValue c
  let d ← hexValue d
  return UInt16.ofNat (a * 4096 + b * 256 + c * 16 + d)

/-- The character a short escape stands for. -/
def unescape (c : Char) : Option Char :=
  match c with
  | '"' => some '"'
  | '\\' => some '\\'
  | '/' => some '/'
  | 'b' => some '\x08'
  | 'f' => some '\x0c'
  | 'n' => some '\n'
  | 'r' => some '\r'
  | 't' => some '\t'
  | _ => none

/-- A string up to its closing quote. -/
def parseStr : List Char → Option (List UInt16 × List Char)
  | [] => none
  | c :: rest =>
      if c = '"' then some ([], rest)
      else if c = '\\' then
        match rest with
        | 'u' :: h₁ :: h₂ :: h₃ :: h₄ :: rest =>
            match hexUnit h₁ h₂ h₃ h₄ with
            | none => none
            | some u => (parseStr rest).map fun p => (u :: p.1, p.2)
        | e :: rest =>
            match unescape e with
            | none => none
            | some d => (parseStr rest).map fun p => (encodeChar d ++ p.1, p.2)
        | [] => none
      else if c.toNat < 0x20 then none
      else (parseStr rest).map fun p => (encodeChar c ++ p.1, p.2)

/-- The number a token stands for. -/
def parseNumber (token : List Char) : Option Json :=
  if isNatToken token then some (nat (Nat.ofDigitChars 10 token 0))
  else if h : isRealToken token = true then some (real ⟨token, h⟩)
  else none

/-- A literal or a number. -/
def parseScalar (text : List Char) : Option (Json × List Char) :=
  if ['n', 'u', 'l', 'l'] <+: text then some (null, text.drop 4)
  else if ['t', 'r', 'u', 'e'] <+: text then some (bool true, text.drop 4)
  else if ['f', 'a', 'l', 's', 'e'] <+: text then some (bool false, text.drop 5)
  else (parseNumber (text.takeWhile isNumberChar)).map (·, text.dropWhile isNumberChar)

/-- A string that opens with its quote. -/
def parseKey (text : List Char) : Option (List UInt16 × List Char) :=
  match skipSpace text with
  | '"' :: rest =>
      match parseStr rest with
      | none => none
      | some (k, rest) =>
          match skipSpace rest with
          | ':' :: rest => some (k, rest)
          | _ => none
  | _ => none

mutual

/-- A value; every round consumes a character, so the length of the text is fuel enough. -/
def parseValue : Nat → List Char → Option (Json × List Char)
  | 0, _ => none
  | fuel + 1, text =>
      match skipSpace text with
      | [] => none
      | c :: rest =>
          if c = '"' then (parseStr rest).map fun p => (str p.1, p.2)
          else if c = '[' then
            match skipSpace rest with
            | ']' :: rest => some (arr [], rest)
            | rest => do
                let (v, rest) ← parseValue fuel rest
                let (vs, rest) ← parseItems fuel rest
                return (arr (v :: vs), rest)
          else if c = '{' then
            match skipSpace rest with
            | '}' :: rest => some (obj [], rest)
            | rest => do
                let (k, rest) ← parseKey rest
                let (v, rest) ← parseValue fuel rest
                let (ms, rest) ← parseMembers fuel rest
                return (obj ((k, v) :: ms), rest)
          else parseScalar (c :: rest)

/-- The items of an array from the first on. -/
def parseItems : Nat → List Char → Option (List Json × List Char)
  | 0, _ => none
  | fuel + 1, text =>
      match skipSpace text with
      | ']' :: rest => some ([], rest)
      | ',' :: rest => do
          let (v, rest) ← parseValue fuel rest
          let (vs, rest) ← parseItems fuel rest
          return (v :: vs, rest)
      | _ => none

/-- The members of an object from the first on. -/
def parseMembers : Nat → List Char → Option (List (List UInt16 × Json) × List Char)
  | 0, _ => none
  | fuel + 1, text =>
      match skipSpace text with
      | '}' :: rest => some ([], rest)
      | ',' :: rest => do
          let (k, rest) ← parseKey rest
          let (v, rest) ← parseValue fuel rest
          let (ms, rest) ← parseMembers fuel rest
          return ((k, v) :: ms, rest)
      | _ => none

end

/-- A JSON text: one value, and nothing but space behind it. -/
def parse (text : List Char) : Option Json :=
  match parseValue (text.length + 1) text with
  | none => none
  | some (v, rest) => if skipSpace rest = [] then some v else none

/-! ## §4 — strings read back. -/

theorem hexValue_hexDigit : ∀ n < 16, hexValue (hexDigit n) = some n := by decide

theorem hexDigit_injective {m n : Nat} (hm : m < 16) (hn : n < 16) (h : hexDigit m = hexDigit n) : m = n := by
  have hvalue : some m = some n := by
    rw [← hexValue_hexDigit m hm, h, hexValue_hexDigit n hn]
  exact Option.some.inj hvalue

/-- Bytes are read back from their hexadecimal digits, two for each byte. -/
theorem hexDigits_injective : Function.Injective fun bytes : List UInt8 =>
    bytes.flatMap fun b => [hexDigit (b.toNat / 16), hexDigit (b.toNat % 16)] := by
  intro bytes
  induction bytes with
  | nil =>
    intro bytes' h
    cases bytes' with
    | nil => rfl
    | cons b bs => cases h
  | cons a as ih =>
    intro bytes' h
    cases bytes' with
    | nil => cases h
    | cons b bs =>
      simp only [List.flatMap_cons] at h
      obtain ⟨hhigh, htail⟩ := List.cons.inj h
      obtain ⟨hlow, hrest⟩ := List.cons.inj htail
      have ha := a.toNat_lt
      have hb := b.toNat_lt
      have hdiv := hexDigit_injective (by omega) (by omega) hhigh
      have hmod := hexDigit_injective (Nat.mod_lt _ (by decide)) (Nat.mod_lt _ (by decide)) hlow
      have hab : a = b := UInt8.toNat_inj.1 (by omega)
      rw [hab, ih hrest]

theorem hexUnit_escape {n : Nat} (h : n < 65536) :
    hexUnit (hexDigit (n / 4096 % 16)) (hexDigit (n / 256 % 16)) (hexDigit (n / 16 % 16))
      (hexDigit (n % 16)) = some (UInt16.ofNat n) := by
  have hn : n / 4096 % 16 * 4096 + n / 256 % 16 * 256 + n / 16 % 16 * 16 + n % 16 = n := by omega
  simp only [hexUnit, hexValue_hexDigit _ (Nat.mod_lt _ (by decide : 0 < 16)), Option.bind_eq_bind,
    Option.bind_some, Option.pure_def, hn]

theorem parseStr_escapeUnit {n : Nat} (h : n < 65536) (rest : List Char) :
    parseStr (escapeUnit n ++ rest)
      = (parseStr rest).map fun p => (UInt16.ofNat n :: p.1, p.2) := by
  simp only [escapeUnit, List.cons_append, List.nil_append]
  rw [parseStr]
  simp only [hexUnit_escape h, Char.reduceEq, if_false, if_true]

/-- A character behind a backslash. -/
theorem parseStr_backslash {e d : Char} (he : e ≠ 'u') (hd : unescape e = some d)
    (rest : List Char) :
    parseStr ('\\' :: e :: rest) = (parseStr rest).map fun p => (encodeChar d ++ p.1, p.2) := by
  rw [parseStr]
  · simp only [Char.reduceEq, if_false, if_true, hd]
  · exact fun _ _ _ _ _ h _ => he h

theorem parseStr_escapeChar (c : Char) (rest : List Char) :
    parseStr (escapeChar c ++ rest)
      = (parseStr rest).map fun p => (encodeChar c ++ p.1, p.2) := by
  rw [escapeChar]
  split_ifs with hq hb h8 h9 h10 h12 h13 hctl
  · subst hq
    exact parseStr_backslash (by decide) rfl rest
  · subst hb
    exact parseStr_backslash (by decide) rfl rest
  · subst h8
    exact parseStr_backslash (by decide) rfl rest
  · subst h9
    exact parseStr_backslash (by decide) rfl rest
  · subst h10
    exact parseStr_backslash (by decide) rfl rest
  · subst h12
    exact parseStr_backslash (by decide) rfl rest
  · subst h13
    exact parseStr_backslash (by decide) rfl rest
  · rw [parseStr_escapeUnit (by omega), encodeChar_self (by omega)]
    rfl
  · rw [List.singleton_append, parseStr.eq_def]
    simp only [hq, hb, hctl, if_false]

theorem parseStr_escapePoint (p : Point) (rest : List Char) :
    parseStr (escapePoint p ++ rest)
      = (parseStr rest).map fun q => (p.units ++ q.1, q.2) := by
  cases p with
  | scalar c => exact parseStr_escapeChar c rest
  | lone u =>
      rw [escapePoint, parseStr_escapeUnit u.toNat_lt, UInt16.ofNat_toNat]
      rfl

theorem parseStr_points (ps : List Point) (rest : List Char) :
    parseStr (ps.flatMap escapePoint ++ '"' :: rest) = some (ps.flatMap Point.units, rest) := by
  induction ps with
  | nil =>
      rw [List.flatMap_nil, List.nil_append, parseStr.eq_def]
      rfl
  | cons p ps ih =>
      rw [List.flatMap_cons, List.append_assoc, parseStr_escapePoint, ih, List.flatMap_cons]
      rfl

theorem parseStr_escape (s : List UInt16) (rest : List Char) :
    parseStr (escape s ++ '"' :: rest) = some (s, rest) := by
  rw [escape, parseStr_points, flatMap_units_points]

/-! ## §5 — numbers read back. -/

/-- A digit run starts with a zero only for the number zero. -/
theorem head?_toDigits (n : Nat) (h : (Nat.toDigits 10 n).head? = some '0') : n = 0 := by
  induction n using Nat.strongRecOn with
  | ind n ih =>
      rw [Nat.toDigits_eq_if (by decide)] at h
      split at h
      · rename_i hlt
        by_contra hne
        have hall : ∀ d < 10, d ≠ 0 → [d.digitChar].head? ≠ some '0' := by decide
        exact hall n hlt hne h
      · rename_i hge
        rw [List.head?_append_of_ne_nil _ Nat.toDigits_ne_nil] at h
        have := ih (n / 10) (by omega) h
        omega

theorem isNatToken_toDigits (n : Nat) : isNatToken (Nat.toDigits 10 n) = true := by
  have hall : (Nat.toDigits 10 n).all Char.isDigit = true :=
    List.all_eq_true.mpr fun c hc => Nat.isDigit_of_mem_toDigits (by decide) (by decide) hc
  have hhead : Nat.toDigits 10 n = ['0'] ∨ (Nat.toDigits 10 n).head? ≠ some '0' := by
    by_cases h : (Nat.toDigits 10 n).head? = some '0'
    · left
      rw [head?_toDigits n h, Nat.toDigits_zero]
    · exact .inr h
  simp only [isNatToken, hall, Bool.true_and, Bool.and_eq_true, bne_iff_ne, ne_eq,
    Nat.toDigits_ne_nil, not_false_eq_true, Bool.or_eq_true, beq_iff_eq, true_and]
  exact hhead

theorem parseNumber_toDigits (n : Nat) : parseNumber (Nat.toDigits 10 n) = some (nat n) := by
  rw [parseNumber, if_pos (isNatToken_toDigits n), Nat.ofDigitChars_ten_toDigits]

theorem parseNumber_real (token : RealToken) : parseNumber token.val = some (real token) := by
  have h := token.property
  have hnat : isNatToken token.val = false := by
    simp only [isRealToken, Bool.and_eq_true, Bool.not_eq_true'] at h
    exact h.2
  rw [parseNumber, hnat, if_neg (by simp), dif_pos h]

/-- What follows a value does not continue a number. -/
def EndsNumber (rest : List Char) : Prop := ∀ c ∈ rest.head?, isNumberChar c = false

theorem span_number {token rest : List Char} (ht : ∀ c ∈ token, isNumberChar c = true)
    (hr : EndsNumber rest) :
    (token ++ rest).takeWhile isNumberChar = token ∧
      (token ++ rest).dropWhile isNumberChar = rest := by
  have hrest : rest.takeWhile isNumberChar = [] ∧ rest.dropWhile isNumberChar = rest := by
    cases rest with
    | nil => exact ⟨rfl, rfl⟩
    | cons c rest =>
        have hc := hr c rfl
        simp only [List.takeWhile_cons, List.dropWhile_cons, hc, Bool.false_eq_true, if_false,
          and_self]
  rw [List.takeWhile_append_of_pos ht, List.dropWhile_append_of_pos ht, hrest.1, hrest.2,
    List.append_nil]
  exact ⟨rfl, rfl⟩

theorem isNumberChar_of_isDigit {c : Char} (h : c.isDigit = true) : isNumberChar c = true := by
  simp only [isNumberChar, h, Bool.true_or]

/-- A number character opens no other value and is no space. -/
theorem ne_of_isNumberChar {c d : Char} (hc : isNumberChar c = true) (hd : isNumberChar d = false) :
    c ≠ d := by
  rintro rfl
  rw [hc] at hd
  cases hd

theorem parseScalar_token {token rest : List Char} (hne : token ≠ [])
    (ht : ∀ c ∈ token, isNumberChar c = true) (hr : EndsNumber rest) :
    parseScalar (token ++ rest) = (parseNumber token).map (·, rest) := by
  obtain ⟨c, cs, rfl⟩ := List.exists_cons_of_ne_nil hne
  have hc := ht c List.mem_cons_self
  have hn : ∀ {d : Char} {ds : List Char}, isNumberChar d = false →
      ¬ (d :: ds) <+: (c :: cs ++ rest) := by
    intro d ds hd hp
    rw [List.cons_append, List.cons_prefix_cons] at hp
    exact ne_of_isNumberChar hc hd hp.1.symm
  rw [parseScalar, if_neg (hn rfl), if_neg (hn rfl), if_neg (hn rfl), (span_number ht hr).1,
    (span_number ht hr).2]

/-! ## §6 — values read back. -/

theorem skipSpace_cons {c : Char} (h : isSpace c = false) (rest : List Char) :
    skipSpace (c :: rest) = c :: rest := by
  rw [skipSpace, List.dropWhile_cons_of_neg (by simp [h])]

theorem isSpace_of_isNumberChar {c : Char} (h : isNumberChar c = true) : isSpace c = false := by
  have h1 := ne_of_isNumberChar h (d := ' ') rfl
  have h2 := ne_of_isNumberChar h (d := '\t') rfl
  have h3 := ne_of_isNumberChar h (d := '\n') rfl
  have h4 := ne_of_isNumberChar h (d := '\r') rfl
  simp only [isSpace, beq_false_of_ne h1, beq_false_of_ne h2, beq_false_of_ne h3,
    beq_false_of_ne h4, Bool.or_self]

theorem parseValue_token {token rest : List Char} {v : Json} {fuel : Nat} (hne : token ≠ [])
    (ht : ∀ c ∈ token, isNumberChar c = true) (hr : EndsNumber rest)
    (hv : parseNumber token = some v) : parseValue (fuel + 1) (token ++ rest) = some (v, rest) := by
  have hs := parseScalar_token hne ht hr
  obtain ⟨c, cs, rfl⟩ := List.exists_cons_of_ne_nil hne
  have hc := ht c List.mem_cons_self
  rw [List.cons_append] at hs ⊢
  rw [parseValue, skipSpace_cons (isSpace_of_isNumberChar hc)]
  simp only [ne_of_isNumberChar hc (d := '"') rfl, ne_of_isNumberChar hc (d := '[') rfl,
    ne_of_isNumberChar hc (d := '{') rfl, if_false, hs, hv, Option.map_some]

theorem parseKey_printStr (k : List UInt16) (rest : List Char) :
    parseKey (printStr k ++ ':' :: rest) = some (k, rest) := by
  simp only [parseKey, printStr, List.cons_append, List.append_assoc, List.nil_append,
    skipSpace_cons (show isSpace '"' = false from rfl), parseStr_escape,
    skipSpace_cons (show isSpace ':' = false from rfl)]

/-- No value's text is empty, starts with a space or with a closing bracket. -/
theorem print_head (v : Json) :
    ∃ c rest, print v = c :: rest ∧ isSpace c = false ∧ c ≠ ']' ∧ c ≠ '}' := by
  have htoken : ∀ token : List Char, token ≠ [] → (∀ c ∈ token, isNumberChar c = true) →
      ∃ c rest, token = c :: rest ∧ isSpace c = false ∧ c ≠ ']' ∧ c ≠ '}' := by
    intro token hne ht
    obtain ⟨c, cs, rfl⟩ := List.exists_cons_of_ne_nil hne
    have hc := ht c List.mem_cons_self
    exact ⟨c, cs, rfl, isSpace_of_isNumberChar hc, ne_of_isNumberChar hc rfl,
      ne_of_isNumberChar hc rfl⟩
  match v with
  | null => exact ⟨_, _, by rw [print], by decide⟩
  | bool true => exact ⟨_, _, by rw [print], by decide⟩
  | bool false => exact ⟨_, _, by rw [print], by decide⟩
  | nat n =>
      rw [print]
      exact htoken _ Nat.toDigits_ne_nil fun c hc =>
        isNumberChar_of_isDigit (Nat.isDigit_of_mem_toDigits (by decide) (by decide) hc)
  | real token =>
      rw [print]
      have h := token.property
      simp only [isRealToken, Bool.and_eq_true, bne_iff_ne, List.all_eq_true] at h
      exact htoken _ h.1.1.1 h.1.1.2
  | str s => exact ⟨_, _, by rw [print, printStr, List.cons_append], by decide⟩
  | arr [] => exact ⟨_, _, by rw [print], by decide⟩
  | arr (w :: ws) => exact ⟨_, _, by rw [print, List.cons_append], by decide⟩
  | obj [] => exact ⟨_, _, by rw [print], by decide⟩
  | obj ((k, w) :: ms) =>
      exact ⟨_, _, by rw [print, List.cons_append, List.cons_append], by decide⟩

/-- A text that starts like a value starts an array's items, not its end. -/
theorem skipSpace_print (v : Json) (rest : List Char) :
    skipSpace (print v ++ rest) = print v ++ rest := by
  obtain ⟨c, cs, hp, hc, -, -⟩ := print_head v
  rw [hp, List.cons_append, skipSpace_cons hc]

theorem endsNumber_cons {c : Char} (h : isNumberChar c = false) (rest : List Char) :
    EndsNumber (c :: rest) := by
  intro d hd
  obtain rfl : c = d := Option.some.inj hd
  exact h

theorem endsNumber_printItems (vs : List Json) (rest : List Char) :
    EndsNumber (printItems vs ++ rest) := by
  cases vs with
  | nil =>
      rw [printItems]
      exact endsNumber_cons rfl rest
  | cons v vs =>
      rw [printItems]
      exact endsNumber_cons rfl _

theorem endsNumber_printMembers (ms : List (List UInt16 × Json)) (rest : List Char) :
    EndsNumber (printMembers ms ++ rest) := by
  rcases ms with _ | ⟨⟨k, v⟩, ms⟩
  · rw [printMembers]
    exact endsNumber_cons rfl rest
  · rw [printMembers]
    exact endsNumber_cons rfl _

mutual

theorem parseValue_print : ∀ (v : Json) (fuel : Nat) (rest : List Char),
    (print v).length ≤ fuel → EndsNumber rest → parseValue fuel (print v ++ rest) = some (v, rest)
  | v, 0, rest, hf, _ => by
      obtain ⟨c, cs, hp, -⟩ := print_head v
      rw [hp] at hf
      simp at hf
  | null, fuel + 1, rest, _, _ => by
      rw [print, parseValue]
      rfl
  | bool true, fuel + 1, rest, _, _ => by
      rw [print, parseValue]
      rfl
  | bool false, fuel + 1, rest, _, _ => by
      rw [print, parseValue]
      rfl
  | nat n, fuel + 1, rest, _, hr => by
      rw [print]
      refine parseValue_token Nat.toDigits_ne_nil (fun c hc => ?_) hr (parseNumber_toDigits n)
      exact isNumberChar_of_isDigit (Nat.isDigit_of_mem_toDigits (by decide) (by decide) hc)
  | real token, fuel + 1, rest, _, hr => by
      rw [print]
      have h := token.property
      simp only [isRealToken, Bool.and_eq_true, bne_iff_ne, List.all_eq_true] at h
      exact parseValue_token h.1.1.1 h.1.1.2 hr (parseNumber_real token)
  | str s, fuel + 1, rest, _, _ => by
      rw [print, printStr, List.cons_append, List.cons_append, List.append_assoc, parseValue,
        skipSpace_cons (by decide)]
      simp only [if_true, List.singleton_append, parseStr_escape, Option.map_some]
  | arr [], fuel + 1, rest, _, _ => by
      rw [print, parseValue]
      rfl
  | arr (v :: vs), fuel + 1, rest, hf, _ => by
      rw [print, List.cons_append, List.length_cons, List.length_append] at hf
      have hv := parseValue_print v fuel (printItems vs ++ rest) (by omega)
        (endsNumber_printItems vs rest)
      have hvs := parseItems_print vs fuel rest (by omega)
      -- what starts an item is no closing bracket
      obtain ⟨c, cs, hp, hc, hne, -⟩ := print_head v
      rw [print, List.cons_append, List.cons_append, List.append_assoc, parseValue,
        skipSpace_cons (by decide)]
      simp only [Char.reduceEq, if_false, if_true, skipSpace_print]
      rw [hp, List.cons_append] at hv ⊢
      split
      · rename_i heq
        exact absurd (List.cons.inj heq).1 hne
      · simp only [hv, hvs, Option.bind_eq_bind, Option.bind_some, Option.pure_def]
  | obj [], fuel + 1, rest, _, _ => by
      rw [print, parseValue]
      rfl
  | obj ((k, v) :: ms), fuel + 1, rest, hf, _ => by
      simp only [print, List.cons_append, List.length_cons, List.length_append] at hf
      have hv := parseValue_print v fuel (printMembers ms ++ rest) (by omega)
        (endsNumber_printMembers ms rest)
      have hms := parseMembers_print ms fuel rest (by omega)
      have hk := parseKey_printStr k (print v ++ (printMembers ms ++ rest))
      rw [print]
      simp only [List.cons_append, List.append_assoc, printStr] at hk ⊢
      rw [parseValue, skipSpace_cons (by decide)]
      simp only [Char.reduceEq, if_false, if_true, skipSpace_cons (show isSpace '"' = false from rfl)]
      split
      · rename_i heq
        exact absurd (List.cons.inj heq).1 (by decide)
      · simp only [hk, hv, hms, Option.bind_eq_bind, Option.bind_some, Option.pure_def]

theorem parseItems_print : ∀ (vs : List Json) (fuel : Nat) (rest : List Char),
    (printItems vs).length ≤ fuel → parseItems fuel (printItems vs ++ rest) = some (vs, rest)
  | [], 0, rest, hf => by simp [printItems] at hf
  | _ :: _, 0, rest, hf => by simp [printItems] at hf
  | [], fuel + 1, rest, _ => by
      rw [printItems, parseItems]
      rfl
  | v :: vs, fuel + 1, rest, hf => by
      simp only [printItems, List.cons_append, List.length_cons, List.length_append] at hf
      have hv := parseValue_print v fuel (printItems vs ++ rest) (by omega)
        (endsNumber_printItems vs rest)
      have hvs := parseItems_print vs fuel rest (by omega)
      rw [printItems, List.cons_append, List.cons_append, List.append_assoc, parseItems,
        skipSpace_cons (by decide)]
      simp only [hv, hvs, Option.bind_eq_bind, Option.bind_some, Option.pure_def]

theorem parseMembers_print : ∀ (ms : List (List UInt16 × Json)) (fuel : Nat) (rest : List Char),
    (printMembers ms).length ≤ fuel → parseMembers fuel (printMembers ms ++ rest) = some (ms, rest)
  | [], 0, rest, hf => by simp [printMembers] at hf
  | (_, _) :: _, 0, rest, hf => by simp [printMembers] at hf
  | [], fuel + 1, rest, _ => by
      rw [printMembers, parseMembers]
      rfl
  | (k, v) :: ms, fuel + 1, rest, hf => by
      simp only [printMembers, List.cons_append, List.length_cons, List.length_append] at hf
      have hv := parseValue_print v fuel (printMembers ms ++ rest) (by omega)
        (endsNumber_printMembers ms rest)
      have hms := parseMembers_print ms fuel rest (by omega)
      have hk := parseKey_printStr k (print v ++ (printMembers ms ++ rest))
      rw [printMembers]
      simp only [List.cons_append, List.append_assoc, printStr] at hk ⊢
      rw [parseMembers, skipSpace_cons (by decide)]
      simp only [hk, hv, hms, Option.bind_eq_bind, Option.bind_some, Option.pure_def]

end

/-- **Round trip.** Every value is recovered from its text. -/
theorem parse_print (v : Json) : parse (print v) = some v := by
  have h := parseValue_print v ((print v).length + 1) [] (by omega) (by simp [EndsNumber])
  rw [List.append_nil] at h
  simp only [parse, h]
  rfl

/-! ## §7 — sizes. -/

/-- The characters that have an escape of two characters. -/
def shortEscapes : List Char := ['"', '\\', '\x08', '\t', '\n', '\x0c', '\r']

/-- The bytes of a point inside a printed string. -/
def escapedPointBytes : Point → Nat
  | .scalar c =>
      if c ∈ shortEscapes then 2 else if c.toNat < 0x20 then 6 else c.utf8Size
  | .lone _ => 6

/-- The bytes of a string between its quotes. -/
def escapedBytes (s : List UInt16) : Nat :=
  (points s).foldr (fun p n => escapedPointBytes p + n) 0

mutual

/-- The bytes of a printed value. -/
def size : Json → Nat
  | null => 4
  | bool true => 4
  | bool false => 5
  | nat n => (Nat.toDigits 10 n).length
  | real token => token.val.length
  | str s => escapedBytes s + 2
  | arr [] => 2
  | arr (v :: vs) => 1 + size v + sizeItems vs
  | obj [] => 2
  | obj ((k, v) :: ms) => 1 + (escapedBytes k + 2) + 1 + size v + sizeMembers ms

/-- The bytes of items, each behind a separator, and of the closing bracket. -/
def sizeItems : List Json → Nat
  | [] => 1
  | v :: vs => 1 + size v + sizeItems vs

/-- The bytes of members, each behind a separator, and of the closing brace. -/
def sizeMembers : List (List UInt16 × Json) → Nat
  | [] => 1
  | (k, v) :: ms => 1 + (escapedBytes k + 2) + 1 + size v + sizeMembers ms

end

theorem utf8Size_ascii {c : Char} (h : c.toNat < 0x80) : c.utf8Size = 1 := by
  have hv : c.val ≤ 127 := by
    rw [UInt32.le_iff_toNat_le]
    show c.toNat ≤ 127
    omega
  exact if_pos hv

/-- Text of ASCII characters has as many bytes as characters. -/
theorem utf8Len_ascii {cs : List Char} (h : ∀ c ∈ cs, c.toNat < 0x80) : utf8Len cs = cs.length := by
  induction cs with
  | nil => rfl
  | cons c cs ih =>
      rw [utf8Len_cons, utf8Size_ascii (h c List.mem_cons_self),
        ih fun d hd => h d (List.mem_cons_of_mem _ hd), List.length_cons]
      exact Nat.add_comm _ _

theorem hexDigit_ascii {n : Nat} (h : n < 16) : (hexDigit n).toNat < 0x80 := by
  revert h n
  decide

theorem utf8Len_escapeUnit (n : Nat) : utf8Len (escapeUnit n) = 6 := by
  have h : ∀ c ∈ escapeUnit n, c.toNat < 0x80 := by
    simp only [escapeUnit, List.mem_cons, List.not_mem_nil, or_false]
    rintro c (rfl | rfl | rfl | rfl | rfl | rfl)
    · decide
    · decide
    all_goals exact hexDigit_ascii (Nat.mod_lt _ (by decide))
  rw [utf8Len_ascii h]
  rfl

theorem utf8Len_escapePoint (p : Point) : utf8Len (escapePoint p) = escapedPointBytes p := by
  cases p with
  | lone u => exact utf8Len_escapeUnit _
  | scalar c =>
      show utf8Len (escapeChar c) = if c ∈ shortEscapes then 2 else _
      by_cases hs : c ∈ shortEscapes
      · rw [if_pos hs]
        simp only [shortEscapes, List.mem_cons, List.not_mem_nil, or_false] at hs
        rcases hs with rfl | rfl | rfl | rfl | rfl | rfl | rfl <;> decide
      · rw [if_neg hs]
        simp only [shortEscapes, List.mem_cons, List.not_mem_nil, or_false, not_or] at hs
        obtain ⟨h₁, h₂, h₃, h₄, h₅, h₆, h₇⟩ := hs
        rw [escapeChar, if_neg h₁, if_neg h₂, if_neg h₃, if_neg h₄, if_neg h₅, if_neg h₆, if_neg h₇]
        split
        · exact utf8Len_escapeUnit _
        · rfl

theorem utf8Len_escape (s : List UInt16) : utf8Len (escape s) = escapedBytes s := by
  unfold escape escapedBytes
  induction points s with
  | nil => rfl
  | cons p ps ih => rw [List.flatMap_cons, utf8Len_append, utf8Len_escapePoint, ih, List.foldr_cons]

theorem utf8Len_printStr (s : List UInt16) : utf8Len (printStr s) = escapedBytes s + 2 := by
  have hq : ('"').utf8Size = 1 := by decide
  rw [printStr, utf8Len_append, utf8Len_cons, utf8Len_escape, utf8Len_cons, utf8Len_nil, hq]
  omega

theorem numberChar_ascii {c : Char} (h : isNumberChar c = true) : c.toNat < 0x80 := by
  simp only [isNumberChar, Bool.or_eq_true, beq_iff_eq] at h
  rcases h with ((((h | rfl) | rfl) | rfl) | rfl) | rfl
  · have hd : c.toNat ≤ 57 := (Char.isDigit_iff_toNat.mp h).2
    omega
  all_goals decide

theorem isNumberChar_real (token : RealToken) : ∀ c ∈ token.val, isNumberChar c = true := by
  have h := token.property
  simp only [isRealToken, Bool.and_eq_true] at h
  exact List.all_eq_true.mp h.1.1.2

mutual

/-- **`size` is the number of bytes of the printed value.** -/
theorem utf8Len_print : ∀ v : Json, utf8Len (print v) = size v
  | null | bool true | bool false | arr [] | obj [] => by decide
  | nat n => by
      rw [print, size]
      exact utf8Len_ascii fun c hc => numberChar_ascii (isNumberChar_of_isDigit (Nat.isDigit_of_mem_toDigits (by decide) (by decide) hc))
  | real token => by
      rw [print, size]
      exact utf8Len_ascii fun c hc => numberChar_ascii (isNumberChar_real token c hc)
  | str s => by rw [print, size, utf8Len_printStr]
  | arr (v :: vs) => by
      have hb : ('[').utf8Size = 1 := by decide
      rw [print, size, utf8Len_append, utf8Len_cons, utf8Len_print v, utf8Len_printItems vs, hb]
  | obj ((k, v) :: ms) => by
      have hb : ('{').utf8Size = 1 := by decide
      have hc : (':').utf8Size = 1 := by decide
      rw [print, size, utf8Len_append, utf8Len_append, utf8Len_cons, utf8Len_cons,
        utf8Len_printStr, utf8Len_print v, utf8Len_printMembers ms, hb, hc]
      omega

theorem utf8Len_printItems : ∀ vs : List Json, utf8Len (printItems vs) = sizeItems vs
  | [] => by decide
  | v :: vs => by
      have hc : (',').utf8Size = 1 := by decide
      rw [printItems, sizeItems, utf8Len_append, utf8Len_cons, utf8Len_print v,
        utf8Len_printItems vs, hc]

theorem utf8Len_printMembers : ∀ ms : List (List UInt16 × Json),
    utf8Len (printMembers ms) = sizeMembers ms
  | [] => by decide
  | (k, v) :: ms => by
      have hc : (',').utf8Size = 1 := by decide
      have hd : (':').utf8Size = 1 := by decide
      rw [printMembers, sizeMembers, utf8Len_append, utf8Len_append, utf8Len_cons, utf8Len_cons,
        utf8Len_printStr, utf8Len_print v, utf8Len_printMembers ms, hc, hd]
      omega

end

/-! ## §8 — a bound that does not look into strings. -/

theorem escapedPointBytes_le (p : Point) : escapedPointBytes p ≤ 6 := by
  cases p with
  | lone u => exact Nat.le_refl 6
  | scalar c =>
      rw [escapedPointBytes]
      split
      · decide
      · split
        · decide
        · exact Nat.le_trans (Char.utf8Size_le_four c) (by decide)

theorem length_units_pos (p : Point) : 1 ≤ p.units.length := by
  cases p with
  | lone u => exact Nat.le_refl 1
  | scalar c =>
      rw [Point.units, encodeChar]
      split
      · exact Nat.le_refl 1
      · exact Nat.le_succ 1

/-- A code unit takes six bytes at most. -/
theorem escapedBytes_le (s : List UInt16) : escapedBytes s ≤ 6 * s.length := by
  have hsum : ∀ ps : List Point, ps.foldr (fun p n => escapedPointBytes p + n) 0
      ≤ 6 * (ps.flatMap Point.units).length := by
    intro ps
    induction ps with
    | nil => exact Nat.le_refl 0
    | cons p ps ih =>
        have hp := escapedPointBytes_le p
        have hunits := length_units_pos p
        rw [List.foldr_cons, List.flatMap_cons, List.length_append]
        omega
  have h := hsum (points s)
  rwa [flatMap_units_points] at h

mutual

/-- `size` with six bytes for every code unit of a string. -/
def bulk : Json → Nat
  | null => 4
  | bool true => 4
  | bool false => 5
  | nat n => (Nat.toDigits 10 n).length
  | real token => token.val.length
  | str s => 6 * s.length + 2
  | arr items => 2 + bulkItems items
  | obj members => 2 + bulkMembers members

/-- The bulk of items, each with a separator. -/
def bulkItems : List Json → Nat
  | [] => 0
  | v :: vs => bulk v + 1 + bulkItems vs

/-- The bulk of members: keys at six bytes a unit, with quotes, colon and separator. -/
def bulkMembers : List (List UInt16 × Json) → Nat
  | [] => 0
  | (k, v) :: ms => 6 * k.length + bulk v + 4 + bulkMembers ms

end

mutual

theorem size_le_bulk : ∀ v : Json, size v ≤ bulk v
  | null | bool true | bool false | arr [] | obj [] => by decide
  | nat n => Nat.le_of_eq (by rw [size, bulk])
  | real token => Nat.le_of_eq (by rw [size, bulk])
  | str s => by
      rw [size, bulk]
      exact Nat.add_le_add_right (escapedBytes_le s) 2
  | arr (v :: vs) => by
      have hv := size_le_bulk v
      have hvs := sizeItems_le_bulkItems vs
      rw [size, bulk, bulkItems]
      omega
  | obj ((k, v) :: ms) => by
      have hk := escapedBytes_le k
      have hv := size_le_bulk v
      have hms := sizeMembers_le_bulkMembers ms
      rw [size, bulk, bulkMembers]
      omega

theorem sizeItems_le_bulkItems : ∀ vs : List Json, sizeItems vs ≤ bulkItems vs + 1
  | [] => Nat.le_refl 1
  | v :: vs => by
      have hv := size_le_bulk v
      have hvs := sizeItems_le_bulkItems vs
      rw [sizeItems, bulkItems]
      omega

theorem sizeMembers_le_bulkMembers : ∀ ms : List (List UInt16 × Json),
    sizeMembers ms ≤ bulkMembers ms + 1
  | [] => Nat.le_refl 1
  | (k, v) :: ms => by
      have hk := escapedBytes_le k
      have hv := size_le_bulk v
      have hms := sizeMembers_le_bulkMembers ms
      rw [sizeMembers, bulkMembers]
      omega

end

end Json
end JevGrep.Lib
