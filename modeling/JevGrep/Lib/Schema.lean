/-
# `JevGrep.Lib.Schema` — typed readers of JSON values.

A reader is a function `Json → Option α`. The combinators here are those of a schema library of a
UTF-16 language: lengths are counted in code units, integers are the safe ones, an object is read by
the last member of a name, and a strict object has no member outside its list of names.
-/
import JevGrep.Lib.Json

namespace JevGrep.Lib.Schema

open JevGrep.Lib.Utf16

/-- The largest integer a double holds together with its successor. -/
def MAX_SAFE_INTEGER : Nat := 9007199254740991

/-- A name or another text in code units. -/
def units (s : String) : List UInt16 := encode s.toList

theorem units_injective : Function.Injective units := fun _ _ h =>
  String.toList_injective (encode_injective h)

/-- A read that succeeds has succeeded at its first step. -/
theorem bind_some {α β : Type*} {x : Option α} {f : α → Option β} {b : β} (h : x.bind f = some b) :
    ∃ a, x = some a ∧ f a = some b :=
  Option.bind_eq_some_iff.mp h

theorem some_bind {α β : Type*} {x : Option α} {f : α → Option β} {a : α} {b : β} (hx : x = some a)
    (hf : f a = some b) : x.bind f = some b := by
  rw [hx]
  exact hf

/-- One of two readers succeeded. -/
theorem orElse_some {α : Type*} {x y : Option α} {a : α} (h : (x <|> y) = some a) :
    x = some a ∨ y = some a := by
  cases x with
  | none => exact .inr h
  | some _ => exact .inl h

section Readers

variable {α : Type*}

/-- `z.string()`. -/
def string : Json → Option (List UInt16)
  | .str s => some s
  | _ => none

/-- A string with a bounded number of code units. -/
def boundedString (least most : Nat) (v : Json) : Option (List UInt16) :=
  (string v).filter fun s => least ≤ s.length && s.length ≤ most

/-- `z.boolean()`. -/
def bool : Json → Option Bool
  | .bool b => some b
  | _ => none

/-- An integer in a range within the safe ones. -/
def int (least most : Nat) : Json → Option Nat
  | .nat n => if least ≤ n && n ≤ most && n ≤ MAX_SAFE_INTEGER then some n else none
  | _ => none

/-- A token below zero: a minus sign and a digit other than zero before the exponent. -/
def isNegative (token : List Char) : Bool :=
  token.head? == some '-'
    && (token.takeWhile fun c => c != 'e' && c != 'E').any fun c => c.isDigit && c != '0'

/-- A number that is not negative. -/
def nonNegative : Json → Option JsonNumber
  | .nat n => some (.nat n)
  | .real t => if isNegative t.val then none else some (.real t)
  | _ => none

/-- One of the strings of a table. -/
def choice (table : List (String × α)) (v : Json) : Option α :=
  (string v).bind fun s => (table.find? fun entry => units entry.1 == s).map (·.2)

/-- An array of at most `most` items. -/
def array (item : Json → Option α) (most : Nat) : Json → Option (List α)
  | .arr items => if items.length ≤ most then items.mapM item else none
  | _ => none

/-- An object without members outside the listed names. -/
def strictObject (names : List String) : Json → Option (List (List UInt16 × Json))
  | .obj members =>
      if members.all fun m => names.any fun name => units name == m.1 then some members else none
  | _ => none

/-- The value an object has under a name: the last member of it. -/
def lookup (members : List (List UInt16 × Json)) (name : String) : Option Json :=
  (members.reverse.find? fun m => m.1 == units name).map (·.2)

/-- A member that must be there. -/
def required (members : List (List UInt16 × Json)) (name : String) (read : Json → Option α) :
    Option α :=
  (lookup members name).bind read

/-- An optional member: absent, or present and well formed. -/
def optional (members : List (List UInt16 × Json)) (name : String) (read : Json → Option α) :
    Option (Option α) :=
  match lookup members name with
  | none => some none
  | some v => (read v).map some

end Readers

/-! ## Objects written with their members in order. -/

/-- The members of an object, by name. -/
def named (fields : List (String × Json)) : List (List UInt16 × Json) :=
  fields.map fun f => (units f.1, f.2)

section Named

variable {α : Type*} {fields : List (String × Json)} {name : String} {v : Json}

/-- Where no name is repeated, an object has the value it was written with. -/
theorem lookup_named (hnodup : (fields.map (·.1)).Nodup) (h : (name, v) ∈ fields) :
    lookup (named fields) name = some v := by
  have hfind : ∀ fields : List (String × Json), (fields.map (·.1)).Nodup → (name, v) ∈ fields →
      (named fields).find? (·.1 == units name) = some (units name, v) := by
    intro fields
    induction fields with
    | nil => simp
    | cons f rest ih =>
      intro hnodup h
      rw [List.map_cons, List.nodup_cons] at hnodup
      rcases List.mem_cons.1 h with rfl | h
      · exact List.find?_cons_of_pos (by simp)
      · have hne : f.1 ≠ name := fun heq => hnodup.1 (heq ▸ List.mem_map_of_mem h)
        rw [named, List.map_cons, List.find?_cons_of_neg]
        · exact ih hnodup.2 h
        · simpa using fun heq => hne (units_injective heq)
  rw [lookup, named, ← List.map_reverse]
  rw [show (fields.reverse.map fun f => (units f.1, f.2)) = named fields.reverse from rfl,
    hfind fields.reverse (by rw [List.map_reverse]; exact (List.reverse_perm _).nodup_iff.2 hnodup)
      (List.mem_reverse.2 h)]
  rfl

/-- A later member of the same name counts. -/
theorem lookup_cons (m : List UInt16 × Json) (members : List (List UInt16 × Json)) (name : String) :
    lookup (m :: members) name
      = (lookup members name).or (if m.1 = units name then some m.2 else none) := by
  rw [lookup, lookup, List.reverse_cons, List.find?_append]
  cases members.reverse.find? (·.1 == units name) with
  | some found => rfl
  | none =>
    by_cases hname : m.1 = units name
    · simp [hname]
    · simp [hname]

theorem lookup_nil (name : String) : lookup [] name = none := rfl

theorem required_named {read : Json → Option α} {a : α} (hnodup : (fields.map (·.1)).Nodup)
    (h : (name, v) ∈ fields) (hread : read v = some a) :
    required (named fields) name read = some a := by
  rw [required, lookup_named hnodup h]
  exact hread

/-- An object with known names only is strict. -/
theorem strictObject_named {names : List String} (h : ∀ f ∈ fields, f.1 ∈ names) :
    strictObject names (.obj (named fields)) = some (named fields) := by
  rw [strictObject, if_pos]
  rw [List.all_eq_true]
  intro m hm
  obtain ⟨f, hf, rfl⟩ := List.mem_map.1 hm
  exact List.any_eq_true.2 ⟨f.1, h f hf, by simp⟩

/-- An object with a name outside the listed ones is not strict. -/
theorem strictObject_extra {names : List String} (h : (name, v) ∈ fields) (hname : name ∉ names) :
    strictObject names (.obj (named fields)) = none := by
  rw [strictObject, if_neg]
  intro hall
  apply hname
  have hmem : (units name, v) ∈ named fields := List.mem_map.2 ⟨(name, v), h, rfl⟩
  obtain ⟨other, hother, heq⟩ := List.any_eq_true.1 (List.all_eq_true.1 hall _ hmem)
  rwa [← units_injective (beq_iff_eq.1 heq)]

/-- An array of items that are each read. -/
theorem array_map {β γ : Type} {item : Json → Option γ} {write : β → Json} {read : β → γ} {most : Nat}
    {items : List β} (hlength : items.length ≤ most)
    (h : ∀ b ∈ items, item (write b) = some (read b)) :
    array item most (.arr (items.map write)) = some (items.map read) := by
  have hmap : ∀ items : List β, (∀ b ∈ items, item (write b) = some (read b)) →
      (items.map write).mapM item = some (items.map read) := by
    intro items
    induction items with
    | nil => exact fun _ => rfl
    | cons b rest ih =>
      intro h
      rw [List.map_cons, List.mapM_cons, h b List.mem_cons_self,
        ih fun x hx => h x (List.mem_cons_of_mem b hx)]
      rfl
  rw [array, List.length_map, if_pos hlength]
  exact hmap items h

end Named

/-! ## Values that were read. -/

section Read

variable {α β : Type}

theorem mapM_some {item : α → Option β} : ∀ {as : List α} {bs : List β}, as.mapM item = some bs →
    bs.length = as.length ∧ ∀ b ∈ bs, ∃ a ∈ as, item a = some b
  | [], bs, h => by
      obtain rfl := Option.some.inj (h : some [] = some bs)
      exact ⟨rfl, fun b hb => by cases hb⟩
  | a :: as, bs, h => by
      rw [List.mapM_cons] at h
      obtain ⟨b, hb, h⟩ := bind_some h
      obtain ⟨rest, hrest, h⟩ := bind_some h
      obtain rfl := Option.some.inj (h : some (b :: rest) = some bs)
      obtain ⟨hlength, hall⟩ := mapM_some hrest
      constructor
      · rw [List.length_cons, List.length_cons, hlength]
      · intro x hx
        rcases List.mem_cons.1 hx with rfl | hx
        · exact ⟨a, List.mem_cons_self, hb⟩
        · obtain ⟨a', ha', hitem⟩ := hall x hx
          exact ⟨a', List.mem_cons_of_mem _ ha', hitem⟩

/-- An array that was read is short, and each of its items was read. -/
theorem array_some {item : Json → Option α} {most : Nat} {v : Json} {items : List α}
    (h : array item most v = some items) :
    items.length ≤ most ∧ ∀ x ∈ items, ∃ v, item v = some x := by
  cases v with
  | arr values =>
    rw [array] at h
    split at h
    case isTrue hle =>
      obtain ⟨hlength, hall⟩ := mapM_some h
      constructor
      · rw [hlength]
        exact hle
      · intro x hx
        obtain ⟨v, -, hv⟩ := hall x hx
        exact ⟨v, hv⟩
    case isFalse => cases h
  | _ => cases h

end Read

end JevGrep.Lib.Schema
