/-
# `JevGrep.Lib.Utf8` — strings of scalar values as UTF-8 bytes.

`encode` and `decode` are inverse on their domains: `decode bs = some cs` exactly when `bs = encode cs`
(`decode_eq_some`), so a byte string is valid UTF-8 exactly when `decode` succeeds, and its text is
unique. `encode` has the length `utf8Len` counts.
-/
import JevGrep.Lib.Utf16

namespace JevGrep.Lib.Utf8

open JevGrep.Lib.Utf16

/-! ## §1 — the encoding. -/

/-- The bytes of one scalar value. -/
def encodeChar (c : Char) : List UInt8 :=
  let n := c.toNat
  if n < 0x80 then [UInt8.ofNat n]
  else if n < 0x800 then [UInt8.ofNat (0xC0 + n / 64), UInt8.ofNat (0x80 + n % 64)]
  else if n < 0x10000 then
    [UInt8.ofNat (0xE0 + n / 4096), UInt8.ofNat (0x80 + n / 64 % 64), UInt8.ofNat (0x80 + n % 64)]
  else
    [UInt8.ofNat (0xF0 + n / 262144), UInt8.ofNat (0x80 + n / 4096 % 64),
      UInt8.ofNat (0x80 + n / 64 % 64), UInt8.ofNat (0x80 + n % 64)]

/-- The bytes of a text. -/
def encode (cs : List Char) : List UInt8 := cs.flatMap encodeChar

/-- A byte inside a character. -/
def isContinuation (b : UInt8) : Bool := 0x80 ≤ b.toNat && b.toNat < 0xC0

/-- The payload of a continuation byte. -/
def payload (b : UInt8) : Nat := b.toNat - 0x80

/-- The two-byte form: not a longer form of a one-byte value. -/
def decodeTwo (b₀ : UInt8) : List UInt8 → Option (Char × List UInt8)
  | b₁ :: bs =>
      let n := (b₀.toNat - 0xC0) * 64 + payload b₁
      if isContinuation b₁ && 0x80 ≤ n then some (Char.ofNat n, bs) else none
  | [] => none

/-- The three-byte form: the shortest one, and no surrogate. -/
def decodeThree (b₀ : UInt8) : List UInt8 → Option (Char × List UInt8)
  | b₁ :: b₂ :: bs =>
      let n := (b₀.toNat - 0xE0) * 4096 + payload b₁ * 64 + payload b₂
      if isContinuation b₁ && isContinuation b₂ && 0x800 ≤ n && (n < 0xD800 || 0xDFFF < n) then
        some (Char.ofNat n, bs)
      else none
  | _ => none

/-- The four-byte form: the shortest one, and nothing above U+10FFFF. -/
def decodeFour (b₀ : UInt8) : List UInt8 → Option (Char × List UInt8)
  | b₁ :: b₂ :: b₃ :: bs =>
      let n := (b₀.toNat - 0xF0) * 262144 + payload b₁ * 4096 + payload b₂ * 64 + payload b₃
      if isContinuation b₁ && isContinuation b₂ && isContinuation b₃ && 0x10000 ≤ n
          && n < 0x110000 then
        some (Char.ofNat n, bs)
      else none
  | _ => none

/-- One scalar value off the front. -/
def decodeChar : List UInt8 → Option (Char × List UInt8)
  | [] => none
  | b₀ :: bs =>
      if b₀.toNat < 0x80 then some (Char.ofNat b₀.toNat, bs)
      else if b₀.toNat < 0xC0 then none
      else if b₀.toNat < 0xE0 then decodeTwo b₀ bs
      else if b₀.toNat < 0xF0 then decodeThree b₀ bs
      else if b₀.toNat < 0xF8 then decodeFour b₀ bs
      else none

/-- Every scalar value takes a byte, so the number of bytes bounds the number of rounds. -/
def decodeLoop : Nat → List UInt8 → Option (List Char)
  | _, [] => some []
  | 0, _ :: _ => none
  | fuel + 1, b :: bs =>
      match decodeChar (b :: bs) with
      | none => none
      | some (c, rest) => (decodeLoop fuel rest).map (c :: ·)

/-- `from_utf8`. -/
def decode (bs : List UInt8) : Option (List Char) := decodeLoop bs.length bs

@[simp] theorem encode_nil : encode [] = [] := rfl

@[simp] theorem encode_cons (c : Char) (cs : List Char) :
    encode (c :: cs) = encodeChar c ++ encode cs := rfl

@[simp] theorem encode_append (as bs : List Char) : encode (as ++ bs) = encode as ++ encode bs :=
  List.flatMap_append

/-- The number of bytes of a scalar value, by its range. -/
theorem utf8Size_eq (c : Char) :
    c.utf8Size = if c.toNat < 0x80 then 1 else if c.toNat < 0x800 then 2
      else if c.toNat < 0x10000 then 3 else 4 := by
  have h1 : c.val ≤ 0x7F ↔ c.toNat < 0x80 := UInt32.le_iff_toNat_le.trans Nat.lt_succ_iff.symm
  have h2 : c.val ≤ 0x7FF ↔ c.toNat < 0x800 := UInt32.le_iff_toNat_le.trans Nat.lt_succ_iff.symm
  have h3 : c.val ≤ 0xFFFF ↔ c.toNat < 0x10000 :=
    UInt32.le_iff_toNat_le.trans Nat.lt_succ_iff.symm
  simp only [Char.utf8Size]
  exact if_congr h1 rfl (if_congr h2 rfl (if_congr h3 rfl rfl))

theorem length_encodeChar (c : Char) : (encodeChar c).length = c.utf8Size := by
  rw [utf8Size_eq, encodeChar]
  split_ifs <;> rfl

theorem length_encode (cs : List Char) : (encode cs).length = utf8Len cs := by
  induction cs with
  | nil => rfl
  | cons c cs ih => rw [encode_cons, List.length_append, length_encodeChar, ih, utf8Len_cons]

/-! ## §2 — decoding inverts encoding. -/

theorem toNat_byte {n : Nat} (h : n < 256) : (UInt8.ofNat n).toNat = n :=
  UInt8.toNat_ofNat_of_lt' h

theorem ofNat_toNat_byte (b : UInt8) {n : Nat} (h : b.toNat = n) : UInt8.ofNat n = b := by
  rw [← h, UInt8.ofNat_toNat]

theorem payload_of_toNat {b : UInt8} {n : Nat} (h : b.toNat = 0x80 + n) : payload b = n := by
  have hp : payload b = b.toNat - 0x80 := rfl
  omega

/-- The value of a continuation byte that carries six bits. -/
theorem continuation_ofNat {n : Nat} (h : n < 64) :
    isContinuation (UInt8.ofNat (0x80 + n)) = true ∧ payload (UInt8.ofNat (0x80 + n)) = n := by
  have hb : (UInt8.ofNat (0x80 + n)).toNat = 0x80 + n := toNat_byte (by omega)
  refine ⟨?_, payload_of_toNat hb⟩
  rw [isContinuation, hb, Bool.and_eq_true, decide_eq_true_iff, decide_eq_true_iff]
  exact ⟨Nat.le_add_right _ _, by omega⟩

theorem decodeTwo_append {n : Nat} (h1 : 0x80 ≤ n) (h2 : n < 0x800) (bs : List UInt8) :
    decodeTwo (UInt8.ofNat (0xC0 + n / 64)) (UInt8.ofNat (0x80 + n % 64) :: bs)
      = some (Char.ofNat n, bs) := by
  have hb : (UInt8.ofNat (0xC0 + n / 64)).toNat = 0xC0 + n / 64 := toNat_byte (by omega)
  obtain ⟨hk, hp⟩ := @continuation_ofNat (n % 64) (by omega)
  have hn : (0xC0 + n / 64 - 0xC0) * 64 + n % 64 = n := by omega
  simp only [decodeTwo, hb, hk, hp, hn, Bool.true_and, decide_eq_true h1, if_true]

theorem decodeThree_append {n : Nat} (h1 : 0x800 ≤ n) (h2 : n < 0x10000)
    (hs : n < 0xD800 ∨ 0xDFFF < n) (bs : List UInt8) :
    decodeThree (UInt8.ofNat (0xE0 + n / 4096))
        (UInt8.ofNat (0x80 + n / 64 % 64) :: UInt8.ofNat (0x80 + n % 64) :: bs)
      = some (Char.ofNat n, bs) := by
  have hb : (UInt8.ofNat (0xE0 + n / 4096)).toNat = 0xE0 + n / 4096 := toNat_byte (by omega)
  obtain ⟨hk1, hp1⟩ := @continuation_ofNat (n / 64 % 64) (by omega)
  obtain ⟨hk2, hp2⟩ := @continuation_ofNat (n % 64) (by omega)
  have hn : (0xE0 + n / 4096 - 0xE0) * 4096 + n / 64 % 64 * 64 + n % 64 = n := by omega
  have hs' : (decide (n < 0xD800) || decide (0xDFFF < n)) = true := by
    rw [Bool.or_eq_true, decide_eq_true_iff, decide_eq_true_iff]
    exact hs
  simp only [decodeThree, hb, hk1, hp1, hk2, hp2, hn, Bool.true_and, decide_eq_true h1, hs',
    if_true]

theorem decodeFour_append {n : Nat} (h1 : 0x10000 ≤ n) (h2 : n < 0x110000) (bs : List UInt8) :
    decodeFour (UInt8.ofNat (0xF0 + n / 262144))
        (UInt8.ofNat (0x80 + n / 4096 % 64) :: UInt8.ofNat (0x80 + n / 64 % 64)
          :: UInt8.ofNat (0x80 + n % 64) :: bs)
      = some (Char.ofNat n, bs) := by
  have hb : (UInt8.ofNat (0xF0 + n / 262144)).toNat = 0xF0 + n / 262144 := toNat_byte (by omega)
  obtain ⟨hk1, hp1⟩ := @continuation_ofNat (n / 4096 % 64) (by omega)
  obtain ⟨hk2, hp2⟩ := @continuation_ofNat (n / 64 % 64) (by omega)
  obtain ⟨hk3, hp3⟩ := @continuation_ofNat (n % 64) (by omega)
  have hn : (0xF0 + n / 262144 - 0xF0) * 262144 + n / 4096 % 64 * 4096 + n / 64 % 64 * 64 + n % 64
      = n := by omega
  simp only [decodeFour, hb, hk1, hp1, hk2, hp2, hk3, hp3, hn, Bool.true_and, decide_eq_true h1,
    decide_eq_true h2, if_true]

theorem decodeChar_encodeChar_append (c : Char) (bs : List UInt8) :
    decodeChar (encodeChar c ++ bs) = some (c, bs) := by
  have hr := toNat_ranges c
  have hc : Char.ofNat c.toNat = c := Char.ofNat_toNat c
  rw [encodeChar]
  split_ifs with h1 h2 h3
  · have hb : (UInt8.ofNat c.toNat).toNat = c.toNat := toNat_byte (by omega)
    simp only [List.cons_append, List.nil_append, decodeChar, hb, h1, if_true, hc]
  · have hb : (UInt8.ofNat (0xC0 + c.toNat / 64)).toNat = 0xC0 + c.toNat / 64 :=
      toNat_byte (by omega)
    simp only [List.cons_append, List.nil_append, decodeChar, hb]
    rw [if_neg (by omega), if_neg (by omega), if_pos (by omega),
      decodeTwo_append (by omega) h2, hc]
  · have hb : (UInt8.ofNat (0xE0 + c.toNat / 4096)).toNat = 0xE0 + c.toNat / 4096 :=
      toNat_byte (by omega)
    simp only [List.cons_append, List.nil_append, decodeChar, hb]
    rw [if_neg (by omega), if_neg (by omega), if_neg (by omega), if_pos (by omega),
      decodeThree_append (by omega) h3 (by omega), hc]
  · have hb : (UInt8.ofNat (0xF0 + c.toNat / 262144)).toNat = 0xF0 + c.toNat / 262144 :=
      toNat_byte (by omega)
    simp only [List.cons_append, List.nil_append, decodeChar, hb]
    rw [if_neg (by omega), if_neg (by omega), if_neg (by omega), if_neg (by omega),
      if_pos (by omega), decodeFour_append (by omega) (by omega), hc]

/-- The continuation byte with a given payload. -/
theorem ofNat_payload {b : UInt8} (h : isContinuation b = true) :
    payload b < 64 ∧ UInt8.ofNat (0x80 + payload b) = b := by
  rw [isContinuation, Bool.and_eq_true, decide_eq_true_iff, decide_eq_true_iff] at h
  have hp : payload b = b.toNat - 0x80 := rfl
  exact ⟨by omega, ofNat_toNat_byte b (by omega)⟩

theorem eq_of_decodeTwo {b₀ : UInt8} {bs rest : List UInt8} {c : Char} (h1 : 0xC0 ≤ b₀.toNat)
    (h2 : b₀.toNat < 0xE0) (h : decodeTwo b₀ bs = some (c, rest)) :
    b₀ :: bs = encodeChar c ++ rest := by
  rcases bs with _ | ⟨b₁, bs⟩
  · cases h
  · simp only [decodeTwo] at h
    split_ifs at h with hok
    obtain ⟨rfl, rfl⟩ := Prod.mk.inj (Option.some.inj h)
    rw [Bool.and_eq_true, decide_eq_true_iff] at hok
    obtain ⟨hp1, hb1⟩ := ofNat_payload hok.1
    have hlow := hok.2
    generalize hn : (b₀.toNat - 0xC0) * 64 + payload b₁ = n at hlow ⊢
    have hc : (Char.ofNat n).toNat = n := toNat_ofNat_char (by omega)
    have h0 : UInt8.ofNat (0xC0 + n / 64) = b₀ := ofNat_toNat_byte b₀ (by omega)
    have e1 : n % 64 = payload b₁ := by omega
    simp only [encodeChar, hc]
    rw [if_neg (by omega), if_pos (by omega), h0, e1, hb1]
    rfl

theorem eq_of_decodeThree {b₀ : UInt8} {bs rest : List UInt8} {c : Char} (h1 : 0xE0 ≤ b₀.toNat)
    (h2 : b₀.toNat < 0xF0) (h : decodeThree b₀ bs = some (c, rest)) :
    b₀ :: bs = encodeChar c ++ rest := by
  rcases bs with _ | ⟨b₁, _ | ⟨b₂, bs⟩⟩
  · cases h
  · cases h
  · simp only [decodeThree] at h
    split_ifs at h with hok
    obtain ⟨rfl, rfl⟩ := Prod.mk.inj (Option.some.inj h)
    simp only [Bool.and_eq_true, Bool.or_eq_true, decide_eq_true_iff] at hok
    obtain ⟨⟨⟨hk1, hk2⟩, hlow⟩, hsur⟩ := hok
    obtain ⟨hp1, hb1⟩ := ofNat_payload hk1
    obtain ⟨hp2, hb2⟩ := ofNat_payload hk2
    generalize hn : (b₀.toNat - 0xE0) * 4096 + payload b₁ * 64 + payload b₂ = n at hlow hsur ⊢
    have hc : (Char.ofNat n).toNat = n := toNat_ofNat_char (by omega)
    have h0 : UInt8.ofNat (0xE0 + n / 4096) = b₀ := ofNat_toNat_byte b₀ (by omega)
    have e1 : n / 64 % 64 = payload b₁ := by omega
    have e2 : n % 64 = payload b₂ := by omega
    simp only [encodeChar, hc]
    rw [if_neg (by omega), if_neg (by omega), if_pos (by omega), h0, e1, e2, hb1, hb2]
    rfl

theorem eq_of_decodeFour {b₀ : UInt8} {bs rest : List UInt8} {c : Char} (h1 : 0xF0 ≤ b₀.toNat)
    (h2 : b₀.toNat < 0xF8) (h : decodeFour b₀ bs = some (c, rest)) :
    b₀ :: bs = encodeChar c ++ rest := by
  rcases bs with _ | ⟨b₁, _ | ⟨b₂, _ | ⟨b₃, bs⟩⟩⟩
  · cases h
  · cases h
  · cases h
  · simp only [decodeFour] at h
    split_ifs at h with hok
    obtain ⟨rfl, rfl⟩ := Prod.mk.inj (Option.some.inj h)
    simp only [Bool.and_eq_true, decide_eq_true_iff] at hok
    obtain ⟨⟨⟨⟨hk1, hk2⟩, hk3⟩, hlow⟩, hhigh⟩ := hok
    obtain ⟨hp1, hb1⟩ := ofNat_payload hk1
    obtain ⟨hp2, hb2⟩ := ofNat_payload hk2
    obtain ⟨hp3, hb3⟩ := ofNat_payload hk3
    generalize hn : (b₀.toNat - 0xF0) * 262144 + payload b₁ * 4096 + payload b₂ * 64 + payload b₃
      = n at hlow hhigh ⊢
    have hc : (Char.ofNat n).toNat = n := toNat_ofNat_char (by omega)
    have h0 : UInt8.ofNat (0xF0 + n / 262144) = b₀ := ofNat_toNat_byte b₀ (by omega)
    have e1 : n / 4096 % 64 = payload b₁ := by omega
    have e2 : n / 64 % 64 = payload b₂ := by omega
    have e3 : n % 64 = payload b₃ := by omega
    simp only [encodeChar, hc]
    rw [if_neg (by omega), if_neg (by omega), if_neg (by omega), h0, e1, e2, e3, hb1, hb2, hb3]
    rfl

/-- What decodes to a scalar value is its encoding. -/
theorem eq_of_decodeChar {bs rest : List UInt8} {c : Char} (h : decodeChar bs = some (c, rest)) :
    bs = encodeChar c ++ rest := by
  cases bs with
  | nil => cases h
  | cons b₀ bs =>
      rw [decodeChar] at h
      split_ifs at h with h1 h2 h3 h4 h5
      · obtain ⟨rfl, rfl⟩ := Prod.mk.inj (Option.some.inj h)
        have hn : (Char.ofNat b₀.toNat).toNat = b₀.toNat := toNat_ofNat_char (by omega)
        simp only [encodeChar, hn, h1, if_true, UInt8.ofNat_toNat, List.singleton_append]
      · exact eq_of_decodeTwo (by omega) h3 h
      · exact eq_of_decodeThree (by omega) h4 h
      · exact eq_of_decodeFour (by omega) h5 h

theorem encodeChar_ne_nil (c : Char) : encodeChar c ≠ [] := by
  rw [encodeChar]
  split_ifs <;> simp

/-- Rounds to spare do not matter. -/
theorem decodeLoop_encode (cs : List Char) :
    ∀ fuel, (encode cs).length ≤ fuel → decodeLoop fuel (encode cs) = some cs := by
  induction cs with
  | nil => exact fun fuel _ => by rw [encode_nil, decodeLoop]
  | cons c cs ih =>
      intro fuel hf
      rw [encode_cons, List.length_append] at hf
      have hpos : 0 < (encodeChar c).length := List.length_pos_iff.mpr (encodeChar_ne_nil c)
      obtain ⟨fuel, rfl⟩ : ∃ k, fuel = k + 1 := ⟨fuel - 1, by omega⟩
      obtain ⟨b, bs, hb⟩ := List.exists_cons_of_ne_nil (encodeChar_ne_nil c)
      rw [encode_cons, hb, List.cons_append, decodeLoop, ← List.cons_append, ← hb,
        decodeChar_encodeChar_append]
      simp only [ih fuel (by omega), Option.map_some]

theorem eq_of_decodeLoop : ∀ (fuel : Nat) (bs : List UInt8) (cs : List Char),
    decodeLoop fuel bs = some cs → encode cs = bs := by
  intro fuel
  induction fuel with
  | zero =>
      intro bs cs h
      cases bs with
      | nil =>
          obtain rfl : [] = cs := Option.some.inj h
          rfl
      | cons b bs => cases h
  | succ fuel ih =>
      intro bs cs h
      cases bs with
      | nil =>
          obtain rfl : [] = cs := Option.some.inj h
          rfl
      | cons b bs =>
          rw [decodeLoop] at h
          split at h
          · cases h
          · rename_i c rest hc
            obtain ⟨cs', hcs, rfl⟩ := Option.map_eq_some_iff.mp h
            rw [encode_cons, ih rest cs' hcs, eq_of_decodeChar hc]

theorem decode_encode (cs : List Char) : decode (encode cs) = some cs :=
  decodeLoop_encode cs _ (Nat.le_refl _)

/-- A byte string decodes to a text exactly when it is that text's encoding. -/
theorem decode_eq_some {bs : List UInt8} {cs : List Char} : decode bs = some cs ↔ bs = encode cs := by
  constructor
  · exact fun h => (eq_of_decodeLoop _ bs cs h).symm
  · rintro rfl
    exact decode_encode cs

theorem encode_injective : Function.Injective encode := fun as bs h =>
  Option.some.inj (by rw [← decode_encode as, h, decode_encode])

/-! ## §3 — character boundaries. -/

/-- The first byte of a scalar value is the only one that is no continuation byte. -/
theorem encodeChar_shape (c : Char) : ∃ b rest, encodeChar c = b :: rest ∧
    isContinuation b = false ∧ ∀ x ∈ rest, isContinuation x = true := by
  have hlead : ∀ {n : Nat}, n < 256 → (n < 0x80 ∨ 0xC0 ≤ n) →
      isContinuation (UInt8.ofNat n) = false := fun {n} hn hrange => by
    rw [isContinuation, toNat_byte hn, Bool.and_eq_false_iff, decide_eq_false_iff_not,
      decide_eq_false_iff_not]
    omega
  have hnext : ∀ n : Nat, isContinuation (UInt8.ofNat (0x80 + n % 64)) = true := fun n =>
    (continuation_ofNat (Nat.mod_lt n (by decide))).1
  have hmax := toNat_ranges c
  unfold encodeChar
  dsimp only
  split_ifs with h1 h2 h3
  · exact ⟨_, [], rfl, hlead (by omega) (by omega), by simp⟩
  · exact ⟨_, _, rfl, hlead (by omega) (by omega), by simp only [List.forall_mem_cons, hnext, true_and]; simp⟩
  · exact ⟨_, _, rfl, hlead (by omega) (by omega), by simp only [List.forall_mem_cons, hnext, true_and]; simp⟩
  · exact ⟨_, _, rfl, hlead (by omega) (by omega), by simp only [List.forall_mem_cons, hnext, true_and]; simp⟩

/-- **A byte position is between two scalar values of a text exactly when it is its end or the byte
there is no continuation byte.** -/
theorem boundary_iff {cs : List Char} {i : Nat} :
    (∃ pre post, cs = pre ++ post ∧ (encode pre).length = i) ↔
      i = (encode cs).length ∨ ∃ b, (encode cs)[i]? = some b ∧ isContinuation b = false := by
  induction cs generalizing i with
  | nil =>
    constructor
    · rintro ⟨pre, post, hsplit, rfl⟩
      obtain ⟨rfl, rfl⟩ := List.nil_eq_append_iff.1 hsplit
      exact .inl rfl
    · rintro (rfl | ⟨b, hb, -⟩)
      · exact ⟨[], [], rfl, rfl⟩
      · simp at hb
  | cons c cs ih =>
    obtain ⟨b₀, rest, hshape, hfirst, hrest⟩ := encodeChar_shape c
    rw [encode_cons, hshape, List.cons_append]
    by_cases hzero : i = 0
    · subst hzero
      exact ⟨fun _ => .inr ⟨b₀, rfl, hfirst⟩, fun _ => ⟨[], c :: cs, rfl, rfl⟩⟩
    · by_cases hinside : i ≤ rest.length
      · -- inside the first scalar value
        constructor
        · rintro ⟨pre, post, hsplit, hlen⟩
          rcases pre with _ | ⟨d, pre⟩
          · exact absurd hlen.symm hzero
          · obtain ⟨rfl, -⟩ := List.cons.inj hsplit
            rw [encode_cons, hshape, List.length_append, List.length_cons] at hlen
            omega
        · rintro (hend | ⟨b, hb, hcont⟩)
          · rw [hend, List.length_cons, List.length_append] at hinside
            omega
          · obtain ⟨j, rfl⟩ := Nat.exists_eq_succ_of_ne_zero hzero
            rw [List.getElem?_cons_succ, List.getElem?_append_left (by omega)] at hb
            rw [hrest b (List.mem_of_getElem? hb)] at hcont
            cases hcont
      · obtain ⟨j, rfl⟩ : ∃ j, i = rest.length + 1 + j := ⟨i - rest.length - 1, by omega⟩
        have hsame : (∃ pre post, c :: cs = pre ++ post ∧ (encode pre).length = rest.length + 1 + j) ↔
            ∃ pre post, cs = pre ++ post ∧ (encode pre).length = j := by
          constructor
          · rintro ⟨pre, post, hsplit, hlen⟩
            rcases pre with _ | ⟨d, pre⟩
            · exact absurd hlen.symm hzero
            · obtain ⟨rfl, htail⟩ := List.cons.inj hsplit
              rw [encode_cons, hshape, List.length_append, List.length_cons] at hlen
              exact ⟨pre, post, htail, by omega⟩
          · rintro ⟨pre, post, rfl, hlen⟩
            refine ⟨c :: pre, post, rfl, ?_⟩
            rw [encode_cons, hshape, List.length_append, List.length_cons, hlen]
        rw [hsame, ih]
        have hget : (b₀ :: (rest ++ encode cs))[rest.length + 1 + j]? = (encode cs)[j]? := by
          rw [show rest.length + 1 + j = (rest.length + j) + 1 by omega, List.getElem?_cons_succ,
            List.getElem?_append_right (Nat.le_add_right _ _), Nat.add_sub_cancel_left]
        rw [hget, List.length_cons, List.length_append]
        refine or_congr_left ?_
        omega

end JevGrep.Lib.Utf8
