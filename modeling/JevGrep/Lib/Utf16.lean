/-
# `JevGrep.Lib.Utf16` — strings of UTF-16 code units against strings of scalar values.

A string of a UTF-16 language is a list of code units, surrogates unrestricted; a string of a UTF-8
language is a list of scalar values (`Char`). `encode` embeds the second kind in the first, `decode`
is its partial inverse, and a code-unit string is well formed exactly when `decode` succeeds.

Splitting at a separator and membership of a symbol outside the surrogate range do not see the
encoding (`splitOn_encode`, `unit_mem_encode`), and a code-unit string is never longer than its UTF-8
form (`length_encode_le`).
-/
import JevGrep.Lib.Split

namespace JevGrep.Lib.Utf16

open JevGrep.Lib.Split

/-! ## §1 — code units and scalar values. -/

/-- The code unit of a symbol of the basic plane. -/
def unit (c : Char) : UInt16 := UInt16.ofNat c.toNat

/-- The two halves of a surrogate pair. -/
def isHigh (u : UInt16) : Bool := 0xD800 ≤ u.toNat && u.toNat < 0xDC00
def isLow (u : UInt16) : Bool := 0xDC00 ≤ u.toNat && u.toNat < 0xE000

/-- One code unit for the basic plane, a surrogate pair above it. -/
def encodeChar (c : Char) : List UInt16 :=
  if c.toNat < 0x10000 then [unit c]
  else [UInt16.ofNat (0xD800 + (c.toNat - 0x10000) / 0x400),
    UInt16.ofNat (0xDC00 + (c.toNat - 0x10000) % 0x400)]

/-- The code units of a string of scalar values. -/
def encode (cs : List Char) : List UInt16 := cs.flatMap encodeChar

/-- The scalar value of a surrogate pair. -/
def pair (u v : UInt16) : Char :=
  Char.ofNat (0x10000 + (u.toNat - 0xD800) * 0x400 + (v.toNat - 0xDC00))

/-- What a code-unit string holds at a position: a scalar value, or a surrogate standing alone. -/
inductive Point where
  | scalar (c : Char)
  | lone (u : UInt16)
  deriving DecidableEq

/-- The code units of a code point. -/
def Point.units : Point → List UInt16
  | scalar c => encodeChar c
  | lone u => [u]

/-- The bytes of a point in UTF-8; U+FFFD stands in for a lone surrogate. -/
def Point.utf8Len : Point → Nat
  | scalar c => c.utf8Size
  | lone _ => 3

/-- The points of a code-unit string. -/
def points : List UInt16 → List Point
  | [] => []
  | u :: us =>
      if isHigh u then
        match us with
        | [] => [.lone u]
        | v :: vs => if isLow v then .scalar (pair u v) :: points vs else .lone u :: points (v :: vs)
      else if isLow u then .lone u :: points us
      else .scalar (Char.ofNat u.toNat) :: points us

/-- The scalar values, unless a surrogate stands alone. -/
def scalars : List Point → Option (List Char)
  | [] => some []
  | .scalar c :: ps => (scalars ps).map (c :: ·)
  | .lone _ :: _ => none

/-- The scalar values of a code-unit string, unless a surrogate stands alone in it. -/
def decode (us : List UInt16) : Option (List Char) := scalars (points us)

/-- `Buffer.byteLength`. -/
def byteLength (us : List UInt16) : Nat := (points us).foldr (fun p n => p.utf8Len + n) 0

/-- `String.prototype.isWellFormed`. -/
def isWellFormed (us : List UInt16) : Bool := (decode us).isSome

/-- The number of bytes of a string in UTF-8. -/
def utf8Len : List Char → Nat
  | [] => 0
  | c :: cs => c.utf8Size + utf8Len cs

@[simp] theorem encode_nil : encode [] = [] := rfl

@[simp] theorem encode_cons (c : Char) (cs : List Char) :
    encode (c :: cs) = encodeChar c ++ encode cs := rfl

@[simp] theorem encode_append (as bs : List Char) : encode (as ++ bs) = encode as ++ encode bs :=
  List.flatMap_append

@[simp] theorem utf8Len_nil : utf8Len [] = 0 := rfl

@[simp] theorem utf8Len_cons (c : Char) (cs : List Char) :
    utf8Len (c :: cs) = c.utf8Size + utf8Len cs := rfl

@[simp] theorem utf8Len_append (as bs : List Char) :
    utf8Len (as ++ bs) = utf8Len as + utf8Len bs := by
  induction as with
  | nil => exact (Nat.zero_add _).symm
  | cons a as ih => rw [List.cons_append, utf8Len_cons, utf8Len_cons, ih, Nat.add_assoc]

/-- A scalar value is not a surrogate. -/
theorem toNat_ranges (c : Char) :
    c.toNat < 0xD800 ∨ (0xE000 ≤ c.toNat ∧ c.toNat < 0x110000) := by
  have h := c.valid
  simp only [UInt32.isValidChar, Nat.isValidChar] at h
  have hc : c.toNat = c.val.toNat := rfl
  omega

theorem toNat_unit {c : Char} (h : c.toNat < 0x10000) : (unit c).toNat = c.toNat := by
  rw [unit, UInt16.toNat_ofNat_of_lt' (by simpa [UInt16.size] using h)]

/-! ## §2 — decoding inverts encoding. -/

theorem toNat_ofNat_char {n : Nat} (h : n < 0xD800 ∨ (0xDFFF < n ∧ n < 0x110000)) :
    (Char.ofNat n).toNat = n := by
  have hv : n.isValidChar := h
  rw [Char.ofNat, dif_pos hv]
  rfl

theorem points_single {u : UInt16} {us : List UInt16} (hh : isHigh u = false)
    (hl : isLow u = false) : points (u :: us) = .scalar (Char.ofNat u.toNat) :: points us := by
  rw [points.eq_def]
  simp only [hh, hl, Bool.false_eq_true, if_false]

theorem points_pair {u v : UInt16} {us : List UInt16} (hh : isHigh u = true)
    (hl : isLow v = true) : points (u :: v :: us) = .scalar (pair u v) :: points us := by
  rw [points.eq_def]
  simp only [hh, hl, if_true]

theorem points_encodeChar_append (c : Char) (us : List UInt16) :
    points (encodeChar c ++ us) = .scalar c :: points us := by
  have hr := toNat_ranges c
  by_cases hb : c.toNat < 0x10000
  · have hu := toNat_unit hb
    have hhigh : isHigh (unit c) = false := by
      simp only [isHigh, hu, Bool.and_eq_false_iff, decide_eq_false_iff_not]
      omega
    have hlow : isLow (unit c) = false := by
      simp only [isLow, hu, Bool.and_eq_false_iff, decide_eq_false_iff_not]
      omega
    rw [encodeChar, if_pos hb, List.singleton_append, points_single hhigh hlow, hu,
      Char.ofNat_toNat]
  · have hh : (UInt16.ofNat (0xD800 + (c.toNat - 0x10000) / 0x400)).toNat
        = 0xD800 + (c.toNat - 0x10000) / 0x400 :=
      UInt16.toNat_ofNat_of_lt' (by simp only [UInt16.size]; omega)
    have hl : (UInt16.ofNat (0xDC00 + (c.toNat - 0x10000) % 0x400)).toNat
        = 0xDC00 + (c.toNat - 0x10000) % 0x400 :=
      UInt16.toNat_ofNat_of_lt' (by simp only [UInt16.size]; omega)
    have hhigh : isHigh (UInt16.ofNat (0xD800 + (c.toNat - 0x10000) / 0x400)) = true := by
      simp only [isHigh, hh, Bool.and_eq_true, decide_eq_true_eq]
      omega
    have hlow : isLow (UInt16.ofNat (0xDC00 + (c.toNat - 0x10000) % 0x400)) = true := by
      simp only [isLow, hl, Bool.and_eq_true, decide_eq_true_eq]
      omega
    have hpair : pair (UInt16.ofNat (0xD800 + (c.toNat - 0x10000) / 0x400))
        (UInt16.ofNat (0xDC00 + (c.toNat - 0x10000) % 0x400)) = c := by
      rw [pair, hh, hl, show 0x10000 + (0xD800 + (c.toNat - 0x10000) / 0x400 - 0xD800) * 0x400
        + (0xDC00 + (c.toNat - 0x10000) % 0x400 - 0xDC00) = c.toNat by omega, Char.ofNat_toNat]
    rw [encodeChar, if_neg hb, List.cons_append, List.singleton_append, points_pair hhigh hlow,
      hpair]

theorem points_encode (cs : List Char) : points (encode cs) = cs.map .scalar := by
  induction cs with
  | nil => rfl
  | cons c cs ih => rw [encode_cons, points_encodeChar_append, ih, List.map_cons]

theorem encodeChar_pair {u v : UInt16} (hu : isHigh u = true) (hv : isLow v = true) :
    encodeChar (pair u v) = [u, v] := by
  simp only [isHigh, isLow, Bool.and_eq_true, decide_eq_true_eq] at hu hv
  have hp : (pair u v).toNat = 0x10000 + (u.toNat - 0xD800) * 0x400 + (v.toNat - 0xDC00) :=
    toNat_ofNat_char (.inr (by omega))
  have h1 : 0xD800 + ((pair u v).toNat - 0x10000) / 0x400 = u.toNat := by omega
  have h2 : 0xDC00 + ((pair u v).toNat - 0x10000) % 0x400 = v.toNat := by omega
  rw [encodeChar, if_neg (by omega), h1, h2, UInt16.ofNat_toNat, UInt16.ofNat_toNat]

theorem encodeChar_single {u : UInt16} (hu : isHigh u = false) (hl : isLow u = false) :
    encodeChar (Char.ofNat u.toNat) = [u] := by
  simp only [isHigh, isLow, Bool.and_eq_false_iff, decide_eq_false_iff_not, Nat.not_le, Nat.not_lt]
    at hu hl
  have hlt := u.toNat_lt
  have hn : (Char.ofNat u.toNat).toNat = u.toNat := toNat_ofNat_char (by omega)
  rw [encodeChar, if_pos (by omega), unit, hn, UInt16.ofNat_toNat]

/-- The points of a code-unit string spell it. -/
theorem flatMap_units_points (us : List UInt16) : (points us).flatMap Point.units = us := by
  induction us using points.induct with
  | case1 => rfl
  | case2 u hu => simp [points, hu, Point.units]
  | case3 u hu v vs hv ih =>
      rw [points_pair hu hv, List.flatMap_cons, ih, Point.units, encodeChar_pair hu hv]
      rfl
  | case4 u hu v vs hv ih =>
      rw [points.eq_def]
      simp only [hu, hv, if_true, Bool.false_eq_true, if_false, List.flatMap_cons, ih, Point.units,
        List.singleton_append]
  | case5 u us hu hl ih =>
      rw [points.eq_def]
      simp only [hu, hl, if_true, Bool.false_eq_true, if_false, List.flatMap_cons, ih, Point.units,
        List.singleton_append]
  | case6 u us hu hl ih =>
      rw [Bool.not_eq_true] at hu hl
      rw [points_single hu hl, List.flatMap_cons, ih, Point.units, encodeChar_single hu hl,
        List.singleton_append]

theorem scalars_map_scalar (cs : List Char) : scalars (cs.map .scalar) = some cs := by
  induction cs with
  | nil => rfl
  | cons c cs ih => rw [List.map_cons, scalars, ih, Option.map_some]

theorem eq_map_of_scalars {ps : List Point} : ∀ {cs : List Char}, scalars ps = some cs →
    ps = cs.map .scalar := by
  induction ps with
  | nil =>
      intro cs h
      obtain rfl : [] = cs := Option.some.inj h
      rfl
  | cons p ps ih =>
      intro cs h
      cases p with
      | lone u => cases h
      | scalar c =>
          obtain ⟨ds, hds, rfl⟩ := Option.map_eq_some_iff.mp h
          rw [List.map_cons, ih hds]

theorem flatMap_units_scalar (cs : List Char) :
    (cs.map Point.scalar).flatMap Point.units = encode cs := by
  rw [List.flatMap_map]
  rfl

/-- **Round trip.** Every string of scalar values is recovered from its code units. -/
theorem decode_encode (cs : List Char) : decode (encode cs) = some cs := by
  rw [decode, points_encode, scalars_map_scalar]

theorem encode_injective : Function.Injective encode := fun as bs h =>
  Option.some.inj (by rw [← decode_encode as, h, decode_encode])

theorem isWellFormed_encode (cs : List Char) : isWellFormed (encode cs) = true := by
  rw [isWellFormed, decode_encode, Option.isSome_some]

/-- What decodes is the encoding of what it decodes to. -/
theorem encode_of_decode {us : List UInt16} {cs : List Char} (h : decode us = some cs) :
    encode cs = us := by
  rw [← flatMap_units_points us, eq_map_of_scalars h, flatMap_units_scalar]

/-- A code-unit string is well formed exactly when it encodes scalar values. -/
theorem isWellFormed_iff {us : List UInt16} : isWellFormed us = true ↔ ∃ cs, us = encode cs := by
  constructor
  · intro h
    obtain ⟨cs, hcs⟩ := Option.isSome_iff_exists.mp h
    exact ⟨cs, (encode_of_decode hcs).symm⟩
  · rintro ⟨cs, rfl⟩
    exact isWellFormed_encode cs

/-- Units below the surrogates make a well-formed string. -/
theorem isWellFormed_of_plain {us : List UInt16} (h : ∀ u ∈ us, u.toNat < 0xD800) :
    isWellFormed us = true := by
  rw [isWellFormed_iff]
  induction us with
  | nil => exact ⟨[], rfl⟩
  | cons u us ih =>
      obtain ⟨cs, rfl⟩ := ih fun v hv => h v (List.mem_cons_of_mem _ hv)
      have hu := h u List.mem_cons_self
      have hh : isHigh u = false := by simp only [isHigh, Bool.and_eq_false_iff, decide_eq_false_iff_not]; omega
      have hl : isLow u = false := by simp only [isLow, Bool.and_eq_false_iff, decide_eq_false_iff_not]; omega
      exact ⟨Char.ofNat u.toNat :: cs, by rw [encode_cons, encodeChar_single hh hl]; rfl⟩

theorem byteLength_encode (cs : List Char) : byteLength (encode cs) = utf8Len cs := by
  rw [byteLength, points_encode]
  induction cs with
  | nil => rfl
  | cons c cs ih => rw [List.map_cons, List.foldr_cons, ih, Point.utf8Len, utf8Len_cons]

/-! ## §3 — the encoding is transparent to separators outside the surrogate range. -/

theorem unit_mem_encodeChar {c d : Char} (hc : c.toNat < 0xD800) :
    unit c ∈ encodeChar d ↔ c = d := by
  have hu := toNat_unit (c := c) (by omega)
  by_cases hb : d.toNat < 0x10000
  · have hd := toNat_unit hb
    simp only [encodeChar, if_pos hb, List.mem_singleton]
    constructor
    · intro h
      have : c.toNat = d.toNat := by rw [← hu, ← hd, h]
      exact Char.ext (UInt32.toNat_inj.mp this)
    · rintro rfl
      rfl
  · have hr := toNat_ranges d
    have hne : c ≠ d := fun h => by subst h; omega
    simp only [encodeChar, if_neg hb, List.mem_cons, List.not_mem_nil, or_false, hne, iff_false,
      not_or]
    constructor <;> intro h <;> have := congrArg UInt16.toNat h <;>
      rw [hu, UInt16.toNat_ofNat_of_lt' (by simp only [UInt16.size]; omega)] at this <;> omega

theorem unit_mem_encode {c : Char} {cs : List Char} (hc : c.toNat < 0xD800) :
    unit c ∈ encode cs ↔ c ∈ cs := by
  induction cs with
  | nil => simp
  | cons d ds ih => rw [encode_cons, List.mem_append, unit_mem_encodeChar hc, ih, List.mem_cons]

theorem encodeChar_self {c : Char} (hc : c.toNat < 0xD800) : encodeChar c = [unit c] := by
  rw [encodeChar, if_pos (by omega)]

/-- Splitting at a separator commutes with the encoding. -/
theorem splitOn_encode {c : Char} (hc : c.toNat < 0xD800) (cs : List Char) :
    (encode cs).splitOn (unit c) = (cs.splitOn c).map encode := by
  induction cs using split_induction c with
  | clean cs hcs =>
      rw [List.splitOn_eq_singleton (fun h => hcs ((unit_mem_encode hc).mp h)),
        List.splitOn_eq_singleton hcs, List.map_singleton]
  | split as bs has ih =>
      rw [encode_append, encode_cons, encodeChar_self hc, List.singleton_append,
        List.splitOn_append_cons_self_of_not_mem (fun h => has ((unit_mem_encode hc).mp h)),
        List.splitOn_append_cons_self_of_not_mem has, List.map_cons, ih]

/-! ## §4 — lengths. -/

theorem length_encodeChar_le (c : Char) : (encodeChar c).length ≤ c.utf8Size := by
  have hpos := c.utf8Size_pos
  by_cases hb : c.toNat < 0x10000
  · simp only [encodeChar, if_pos hb, List.length_singleton]
    omega
  · simp only [encodeChar, if_neg hb, List.length_cons, List.length_nil]
    have hn : ¬ c.val.toNat < 0x10000 := hb
    simp only [Char.utf8Size, UInt32.le_iff_toNat_le, UInt32.toNat_ofNatLT]
    split
    · omega
    · split
      · omega
      · split <;> omega

/-- A code-unit string is never longer than its UTF-8 form. -/
theorem length_encode_le (cs : List Char) : (encode cs).length ≤ utf8Len cs := by
  induction cs with
  | nil => exact Nat.le_refl _
  | cons c cs ih =>
      have h := length_encodeChar_le c
      rw [encode_cons, List.length_append, utf8Len_cons]
      omega

theorem encode_eq_nil {cs : List Char} : encode cs = [] ↔ cs = [] := by
  constructor
  · intro h
    exact encode_injective h
  · rintro rfl
    rfl

end JevGrep.Lib.Utf16
