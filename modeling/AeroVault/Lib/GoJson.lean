import AeroVault.Lib.Attempt

/-! JSON documents and how Go's `encoding/json` reads them.

A document keeps the fields of an object in order, with duplicates. Decoded into an
empty interface (`decodeAny`), an object becomes a map, in which the last value of a key
counts. Decoded into a struct, a field is found by its name in any case (`foldName`), and
a later value replaces an earlier one or is merged into it. -/
namespace AeroVault.Lib

inductive Json
  | null
  | bool (b : Bool)
  | number (literal : String)
  | string (s : String)
  | array (items : List Json)
  | object (fields : List (String × Json))

namespace Json

/-! ### Maps -/

variable {α : Type*}

/-- `m[key] = value`. -/
def setKey (m : List (String × α)) (key : String) (value : α) : List (String × α) :=
  (m.filter fun p => p.1 != key) ++ [(key, value)]

/-- The map that the fields make, one after another. -/
def mapOf (fields : List (String × α)) : List (String × α) :=
  fields.foldl (fun m p => setKey m p.1 p.2) []

/-! ### Decoding into an empty interface -/

mutual

def decodeAny : Json → Json
  | .array items => .array (decodeItems items)
  | .object fields => .object (mapOf (decodeFields fields))
  | .null => .null
  | .bool b => .bool b
  | .number literal => .number literal
  | .string s => .string s

def decodeItems : List Json → List Json
  | [] => []
  | item :: rest => decodeAny item :: decodeItems rest

def decodeFields : List (String × Json) → List (String × Json)
  | [] => []
  | (key, value) :: rest => (key, decodeAny value) :: decodeFields rest

end

mutual

/-- Every number in the value can be converted. -/
def convertible (number : String → Bool) : Json → Bool
  | .array items => convertibleItems number items
  | .object fields => convertibleFields number fields
  | .number literal => number literal
  | .null | .bool _ | .string _ => true

def convertibleItems (number : String → Bool) : List Json → Bool
  | [] => true
  | item :: rest => convertible number item && convertibleItems number rest

def convertibleFields (number : String → Bool) : List (String × Json) → Bool
  | [] => true
  | (_, value) :: rest => convertible number value && convertibleFields number rest

end

/-! ### The atoms of a value -/

mutual

def leaves : Json → List Json
  | .array items => leavesOfItems items
  | .object fields => leavesOfFields fields
  | .null => [.null]
  | .bool b => [.bool b]
  | .number literal => [.number literal]
  | .string s => [.string s]

def leavesOfItems : List Json → List Json
  | [] => []
  | item :: rest => leaves item ++ leavesOfItems rest

def leavesOfFields : List (String × Json) → List Json
  | [] => []
  | (_, value) :: rest => leaves value ++ leavesOfFields rest

end

theorem leavesOfItems_eq (items : List Json) : leavesOfItems items = items.flatMap leaves := by
  induction items with
  | nil => rfl
  | cons item rest ih => rw [leavesOfItems, List.flatMap_cons, ih]

theorem leavesOfFields_eq (fields : List (String × Json)) :
    leavesOfFields fields = fields.flatMap fun p => p.2.leaves := by
  induction fields with
  | nil => rfl
  | cons p rest ih => rw [leavesOfFields, List.flatMap_cons, ih]

/-- A string, as one. -/
def text? : Json → Option String
  | .string s => some s
  | .null | .bool _ | .number _ | .array _ | .object _ => none

theorem text?_eq_some {j : Json} {s : String} : j.text? = some s ↔ j = .string s := by
  cases j <;> simp [text?]

/-- The atoms of values that are no string themselves. -/
def besidesTexts (values : List Json) : List Json :=
  (values.filter fun v => v.text?.isNone).flatMap leaves

/-- The atoms of values are their strings and the atoms of the others. -/
theorem mem_flatMap_leaves_iff {values : List Json} {leaf : Json} :
    leaf ∈ values.flatMap leaves ↔
      (∃ s ∈ values.filterMap text?, leaf = .string s) ∨ leaf ∈ besidesTexts values := by
  simp only [besidesTexts, List.mem_flatMap, List.mem_filterMap, List.mem_filter]
  constructor
  · intro h
    obtain ⟨v, hv, hleaf⟩ := h
    cases ht : v.text? with
    | none => exact .inr ⟨v, ⟨hv, by simp [ht]⟩, hleaf⟩
    | some s =>
      obtain rfl := text?_eq_some.mp ht
      exact .inl ⟨s, ⟨_, hv, ht⟩, by simpa [leaves] using hleaf⟩
  · intro h
    obtain ⟨s, ⟨v, hv, ht⟩, rfl⟩ | ⟨v, ⟨hv, -⟩, hleaf⟩ := h
    · obtain rfl := text?_eq_some.mp ht
      exact ⟨_, hv, by simp [leaves]⟩
    · exact ⟨v, hv, hleaf⟩

/-! ### Names of fields -/

/-- The smallest rune that a rune is the same as but for case; runes that are no letter of
a field's name in any case may stay as they are. -/
def foldRune (c : Char) : Char :=
  -- The long s and the sign of the kelvin.
  if c.toNat = 0x17F then 'S' else if c.toNat = 0x212A then 'K' else c.toUpper

def foldName (s : String) : List Char := s.toList.map foldRune

/-- The field of a struct that a key is read into, of those with the given names. -/
def fieldOf {ι : Type*} (name : ι → String) (fields : List ι) (key : String) : Option ι :=
  fields.find? fun f => foldName (name f) == foldName key

/-- The last value that is read into a field. -/
def lastOf {ι : Type*} [DecidableEq ι] (read : String → Option ι) (f : ι) :
    List (String × Json) → Option Json
  | [] => none
  | (key, value) :: rest =>
    match lastOf read f rest with
    | some later => some later
    | none => if read key = some f then some value else none

/-- Decoding into a string: `null` leaves it as it is. -/
def decodeString {ε : Type*} (malformed : ε) (old : String) : Json → Except ε String
  | .string s => .ok s
  | .null => .ok old
  | .bool _ | .number _ | .array _ | .object _ => .error malformed

end Json

end AeroVault.Lib
