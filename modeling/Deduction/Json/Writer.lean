import Deduction.Json.Value

/-!
# Writing JSON

A value is written either on one line without blanks, or with each item of an array and each field
of an object on a line of its own, two blanks further in than the brackets around it.
-/

namespace Deduction

namespace Json

/-- A character inside a string. Quotes, backslashes and control characters are escaped. -/
def escape (c : Char) : List Char :=
  match c with
  | '"' => ['\\', '"']
  | '\\' => ['\\', '\\']
  | '\x08' => ['\\', 'b']
  | '\x0c' => ['\\', 'f']
  | '\n' => ['\\', 'n']
  | '\r' => ['\\', 'r']
  | '\t' => ['\\', 't']
  | c =>
    if c.toNat < 0x20 then
      ['\\', 'u', '0', '0', Nat.digitChar (c.toNat / 16), Nat.digitChar (c.toNat % 16)]
    else [c]

def quoted (s : String) : String :=
  "\"" ++ String.ofList (s.toList.flatMap escape) ++ "\""

def numeralText (n : Numeral) : String :=
  (if n.negative then "-" else "") ++ toString n.mantissa
    ++ (if n.integral then "" else "e" ++ toString n.exponent)

/-- Where a written value stands: on one line, or so many levels in. -/
inductive Layout where
  | flat
  | level (depth : Nat)

namespace Layout

def deeper : Layout → Layout
  | .flat => .flat
  | .level depth => .level (depth + 1)

/-- The break before an item, or before a closing bracket. -/
def newline : Layout → String
  | .flat => ""
  | .level depth => "\n" ++ String.ofList (List.replicate (2 * depth) ' ')

/-- What parts a key from its value. -/
def colon : Layout → String
  | .flat => ":"
  | .level _ => ": "

end Layout

mutual

def write (layout : Layout) : Json → String
  | .null | .void => "null"
  | .bool b => if b then "true" else "false"
  | .number n => numeralText n
  | .string s => quoted s
  | .array [] => "[]"
  | .array (v :: vs) =>
    "[" ++ layout.deeper.newline ++ write layout.deeper v ++ writeRest layout.deeper vs
      ++ layout.newline ++ "]"
  | .object [] => "\x7b\x7d"
  | .object ((k, v) :: fields) =>
    "\x7b" ++ layout.deeper.newline ++ quoted k ++ layout.colon ++ write layout.deeper v
      ++ writeFields layout.deeper fields ++ layout.newline ++ "\x7d"

def writeRest (layout : Layout) : List Json → String
  | [] => ""
  | v :: vs => "," ++ layout.newline ++ write layout v ++ writeRest layout vs

def writeFields (layout : Layout) : List (String × Json) → String
  | [] => ""
  | (k, v) :: fields =>
    "," ++ layout.newline ++ quoted k ++ layout.colon ++ write layout v ++ writeFields layout fields

end

/-- The value on one line. -/
def compact (j : Json) : String := j.write .flat

/-- The value over several lines. -/
def pretty (j : Json) : String := j.write (.level 0)

end Json

end Deduction
