import Deduction.Json.Numeral

/-!
# JSON values

A value keeps the fields of an object in the order of the text, repeated keys included. Two kinds of
limits are not faults of the text itself but of reading a value out of it: how deep containers may
nest, and how large a number may be. `Json.isReadable` states both. A value that is only skipped is
held to neither.
-/

namespace Deduction

inductive Json where
  | null
  | bool (b : Bool)
  | number (n : Numeral)
  | string (s : String)
  | array (items : List Json)
  | object (fields : List (String × Json))
  /-- Text with the form of a value that denotes none: a string in which half of a surrogate pair
  is escaped, or an object with such a key. It can be skipped and not read. -/
  | void

namespace Json

def nat (n : Nat) : Json := .number (.ofNat n)

def strings (items : List String) : Json := .array (items.map .string)

/-- How deep arrays and objects may nest where they are read. -/
def nesting : Nat := 127

mutual

/-- The value can be read, with arrays and objects nested at most `room` deep. -/
def isReadable (room : Nat) : Json → Bool
  | .null | .bool _ | .string _ => true
  | .number n => n.isFinite
  | .array items => 0 < room && areReadable (room - 1) items
  | .object fields => 0 < room && fieldsReadable (room - 1) fields
  | .void => false

def areReadable (room : Nat) : List Json → Bool
  | [] => true
  | item :: items => isReadable room item && areReadable room items

def fieldsReadable (room : Nat) : List (String × Json) → Bool
  | [] => true
  | (_, value) :: fields => isReadable room value && fieldsReadable room fields

end

def string? : Json → Option String
  | .string s => some s
  | _ => none

def index? : Json → Option Nat
  | .number n => n.index?
  | _ => none

def array? : Json → Option (List Json)
  | .array items => some items
  | _ => none

def strings? (j : Json) : Option (List String) := do
  (← j.array?).mapM string?

/-- The values under `key`. -/
def valuesAt (key : String) (fields : List (String × Json)) : List Json :=
  (fields.filter (·.1 = key)).map Prod.snd

/-- The values of the fields `keys` of a record, each `none` where it is absent. A record is written
as an object, in which other keys are passed over and none of `keys` stands twice, or as the array
of its fields in order, the last of which may be left off. -/
def record? (keys : List String) : Json → Option (List (Option Json))
  | .object fields => keys.mapM fun key =>
    match valuesAt key fields with
    | [] => some none
    | [v] => some (some v)
    | _ => none
  | .array items =>
    if items.length ≤ keys.length then
      some (items.map some ++ List.replicate (keys.length - items.length) none)
    else none
  | _ => none

end Json

end Deduction
