import Deduction.Json.Value

/-!
# Reading JSON

The grammar is the strict one: no comments, no comma before a closing bracket, no leading zeros,
no control characters in strings, and nothing but white space around the one value of a text.

Arrays and objects nest, so `value` takes the depth to which they may nest, and `Json.parse?`
allows as much as the text has characters.
-/

namespace Deduction

namespace Json

/-- Reads from the front of a text, if the text begins as it should. -/
abbrev Scanner (α : Type) := List Char → Option (α × List Char)

def isBlank (c : Char) : Bool := c = ' ' || c = '\n' || c = '\t' || c = '\r'

def skipBlanks (s : List Char) : List Char := s.dropWhile isBlank

/-- Reads the given characters. -/
def token (cs : List Char) : Scanner Unit := fun s =>
  if cs.isPrefixOf s then some ((), s.drop cs.length) else none

/-! ## Numbers -/

def digitValue (c : Char) : Nat := c.toNat - '0'.toNat

def digitsValue (digits : List Nat) : Nat := digits.foldl (10 * · + ·) 0

/-- Reads one digit or more. -/
def digits : Scanner (List Nat) := fun s =>
  match s.span Char.isDigit with
  | ([], _) => none
  | (ds, rest) => some (ds.map digitValue, rest)

/-- Reads the digits before the point: a zero stands alone. -/
def wholeDigits : Scanner (List Nat)
  | '0' :: c :: rest => if c.isDigit then none else some ([0], c :: rest)
  | s => digits s

/-- Reads the digits behind a point, if there is one. -/
def fractionDigits : Scanner (Option (List Nat))
  | '.' :: s => (digits s).map fun (ds, rest) => (some ds, rest)
  | s => some (none, s)

def signedDigits : Scanner Int
  | '-' :: s => (digits s).map fun (ds, rest) => (-digitsValue ds, rest)
  | '+' :: s => (digits s).map fun (ds, rest) => (digitsValue ds, rest)
  | s => (digits s).map fun (ds, rest) => (digitsValue ds, rest)

/-- Reads an exponent, if there is one. -/
def exponentPart : Scanner (Option Int)
  | 'e' :: s | 'E' :: s => (signedDigits s).map fun (e, rest) => (some e, rest)
  | s => some (none, s)

def magnitude (negative : Bool) : Scanner Numeral := fun s => do
  let (whole, s) ← wholeDigits s
  let (fraction, s) ← fractionDigits s
  let (exponent, s) ← exponentPart s
  return (.ofDigits negative whole fraction exponent, s)

def numeral : Scanner Numeral
  | '-' :: s => magnitude true s
  | s => magnitude false s

/-! ## Strings -/

/-- A character of a string, or a unit of 16 bits that was escaped by its number. -/
inductive Piece where
  | char (c : Char)
  | unit (n : Nat)

def hexDigit? (c : Char) : Option Nat :=
  if c.isDigit then some (c.toNat - '0'.toNat)
  else if 'a' ≤ c && c ≤ 'f' then some (c.toNat - 'a'.toNat + 10)
  else if 'A' ≤ c && c ≤ 'F' then some (c.toNat - 'A'.toNat + 10)
  else none

def hexValue? (digits : List Char) : Option Nat :=
  digits.foldlM (fun n d => (hexDigit? d).map (16 * n + ·)) 0

/-- The character that a letter stands for behind a backslash. -/
def escaped? : Char → Option Char
  | '"' => some '"'
  | '\\' => some '\\'
  | '/' => some '/'
  | 'b' => some '\x08'
  | 'f' => some '\x0c'
  | 'n' => some '\n'
  | 'r' => some '\r'
  | 't' => some '\t'
  | _ => none

/-- Reads a string behind its opening quote, after the pieces `done`, which stand last first. -/
def pieces (done : List Piece) : Scanner (List Piece)
  | '"' :: s => some (done.reverse, s)
  | '\\' :: 'u' :: a :: b :: c :: d :: s =>
    match hexValue? [a, b, c, d] with
    | some n => pieces (.unit n :: done) s
    | none => none
  | '\\' :: e :: s =>
    match escaped? e with
    | some c => pieces (.char c :: done) s
    | none => none
  | c :: s => if c.toNat < 0x20 then none else pieces (.char c :: done) s
  | [] => none

def isHighSurrogate (n : Nat) : Bool := 0xD800 ≤ n && n ≤ 0xDBFF

def isLowSurrogate (n : Nat) : Bool := 0xDC00 ≤ n && n ≤ 0xDFFF

/-- The characters that pieces stand for, after those `done`, which stand last first. Two units
that are the halves of a surrogate pair stand for one character, and a half alone for none. -/
def assemble? (done : List Char) : List Piece → Option (List Char)
  | [] => some done.reverse
  | .char c :: rest => assemble? (c :: done) rest
  | .unit n :: .unit m :: rest =>
    if isHighSurrogate n then
      if isLowSurrogate m then
        assemble? (Char.ofNat (0x10000 + (n - 0xD800) * 0x400 + (m - 0xDC00)) :: done) rest
      else none
    else if isLowSurrogate n then none
    else assemble? (Char.ofNat n :: done) (.unit m :: rest)
  | .unit n :: rest =>
    if isHighSurrogate n || isLowSurrogate n then none
    else assemble? (Char.ofNat n :: done) rest

/-- Reads a string literal. The answer is `none` where the literal has the form of a string and
denotes none. -/
def literal : Scanner (Option String)
  | '"' :: s => (pieces [] s).map fun (ps, rest) => ((assemble? [] ps).map String.ofList, rest)
  | _ => none

/-! ## Values -/

/-- Reads items, at least one, up to the closing character. -/
def items {α : Type} (item : Scanner α) (closing : Char) : Nat → Scanner (List α)
  | 0, _ => none
  | limit + 1, s => do
    let (a, s) ← item s
    match skipBlanks s with
    | ',' :: s =>
      let (more, s) ← items item closing limit s
      return (a :: more, s)
    | c :: s => if c = closing then some ([a], s) else none
    | [] => none

/-- Reads items parted by commas, behind the opening character and up to the closing one. -/
def series {α : Type} (item : Scanner α) (closing : Char) : Scanner (List α) := fun s =>
  match skipBlanks s with
  | c :: rest => if c = closing then some ([], rest) else items item closing (s.length + 1) s
  | [] => none

/-- Reads a key and its value. -/
def field (value : Scanner Json) : Scanner (Option String × Json) := fun s => do
  let (key, s) ← literal (skipBlanks s)
  match skipBlanks s with
  | ':' :: s =>
    let (v, s) ← value s
    return ((key, v), s)
  | _ => none

/-- An object with the given fields, unless a key denotes no string. -/
def ofFields (fields : List (Option String × Json)) : Json :=
  match fields.mapM fun (key, v) => key.map (·, v) with
  | some fields => .object fields
  | none => .void

/-- Reads a value, with `inner` for what stands in arrays and objects. -/
def valueWith (inner : Scanner Json) : Scanner Json := fun s =>
  match skipBlanks s with
  | '[' :: s => (series inner ']' s).map fun (vs, rest) => (.array vs, rest)
  | '\x7b' :: s => (series (field inner) '\x7d' s).map fun (fs, rest) => (ofFields fs, rest)
  | '"' :: s => (literal ('"' :: s)).map fun (l, rest) => (l.elim .void .string, rest)
  | 'n' :: s => (token "ull".toList s).map fun (_, rest) => (.null, rest)
  | 't' :: s => (token "rue".toList s).map fun (_, rest) => (.bool true, rest)
  | 'f' :: s => (token "alse".toList s).map fun (_, rest) => (.bool false, rest)
  | s => (numeral s).map fun (n, rest) => (.number n, rest)

/-- Reads a value that nests at most `depth` deep. -/
def value : (depth : Nat) → Scanner Json
  | 0 => fun _ => none
  | depth + 1 => valueWith (value depth)

/-- The one value of a text. -/
def parse? (text : String) : Option Json :=
  match value (text.length + 1) text.toList with
  | some (v, rest) => if (skipBlanks rest).isEmpty then some v else none
  | none => none

end Json

end Deduction
