import Mathlib

/-!
# JSON values

A number is an integer or a float, with its value. The fields of an object come in the order of their keys.
-/

namespace Opsense

inductive JsonValue where
  | null
  | bool (b : Bool)
  | number (float : Bool) (value : ℚ)
  | string (text : String)
  | array (items : List JsonValue)
  | object (fields : List (String × JsonValue))

namespace JsonValue

mutual

/-- Equality of values, of the items of arrays, and of the fields of objects. -/
def same : JsonValue → JsonValue → Bool
  | .null, .null => true
  | .bool b, .bool b' => b = b'
  | .number float value, .number float' value' => float = float' ∧ value = value'
  | .string text, .string text' => text = text'
  | .array items, .array items' => sameItems items items'
  | .object fields, .object fields' => sameFields fields fields'
  | _, _ => false

def sameItems : List JsonValue → List JsonValue → Bool
  | [], [] => true
  | v :: vs, w :: ws => same v w && sameItems vs ws
  | _, _ => false

def sameFields : List (String × JsonValue) → List (String × JsonValue) → Bool
  | [], [] => true
  | (k, v) :: fs, (l, w) :: gs => k = l && (same v w && sameFields fs gs)
  | _, _ => false

end

mutual

theorem same_iff : ∀ v w : JsonValue, same v w = true ↔ v = w
  | .null, w => by cases w <;> simp [same]
  | .bool _, w => by cases w <;> simp [same]
  | .number _ _, w => by cases w <;> simp [same]
  | .string _, w => by cases w <;> simp [same]
  | .array items, w => by cases w <;> simp [same, sameItems_iff items]
  | .object fields, w => by cases w <;> simp [same, sameFields_iff fields]

theorem sameItems_iff : ∀ vs ws : List JsonValue, sameItems vs ws = true ↔ vs = ws
  | [], ws => by cases ws <;> simp [sameItems]
  | v :: vs, ws => by cases ws <;> simp [sameItems, same_iff v, sameItems_iff vs]

theorem sameFields_iff : ∀ fs gs : List (String × JsonValue), sameFields fs gs = true ↔ fs = gs
  | [], gs => by cases gs <;> simp [sameFields]
  | (k, v) :: fs, gs => by cases gs <;> simp [sameFields, same_iff v, sameFields_iff fs, Prod.ext_iff, and_assoc]

end

instance decEq : DecidableEq JsonValue := fun v w => decidable_of_iff (same v w = true) (same_iff v w)

def asStr : JsonValue → Option String
  | .string text => some text
  | _ => none

/-- `get` of a key. -/
def get (v : JsonValue) (key : String) : Option JsonValue :=
  match v with
  | .object fields => fields.lookup key
  | _ => none

/-- `get` of an index. -/
def item (v : JsonValue) (index : Nat) : Option JsonValue :=
  match v with
  | .array items => items[index]?
  | _ => none

/-- The items of an array, or the values of an object. -/
def children : JsonValue → List JsonValue
  | .array items => items
  | .object fields => fields.map Prod.snd
  | _ => []

/-- `Map::insert`: a key that is there gets the value, another one is put in its place. -/
def insertField (key : String) (value : JsonValue) : List (String × JsonValue) → List (String × JsonValue)
  | [] => [(key, value)]
  | (k, v) :: fields =>
    if key = k then (key, value) :: fields
    else if key < k then (key, value) :: (k, v) :: fields
    else (k, v) :: insertField key value fields

end JsonValue

end Opsense
