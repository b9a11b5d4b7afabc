import Deduction.Lexicon
import Deduction.Expression.Text

/-!
# Reading terms and formulas

A reader takes the beginning of a text and answers with what it read and the rest of the text, or
with the rest at which it stopped. Where several forms are possible at one place they are tried in
turn, and if none fits, the last one says where reading stopped. For formulas that is the equality,
so a compound formula that does not fit is refused from its own beginning.

Terms and formulas nest, so the readers take the depth to which they may nest. A text nests no
deeper than it has characters, and `Term.parse` and `Formula.parse` allow that depth.
-/

namespace Deduction

/-- Reads from the front of a text, or stops and says what was left. -/
abbrev Reader (α : Type) := List Char → Except (List Char) (α × List Char)

namespace Reader

variable {α : Type}

/-- Reads the one character `c`. -/
def char (c : Char) : Reader Unit
  | [] => .error []
  | d :: rest => if d = c then .ok ((), rest) else .error (d :: rest)

/-- Reads exactly the characters `cs`. -/
def literal (cs : List Char) : Reader Unit := fun s =>
  if cs.isPrefixOf s then .ok ((), s.drop cs.length) else .error s

/-- Reads a name: the placeholder alone, or as many letters and digits as there are. -/
def name : Reader String
  | [] => .error []
  | '_' :: rest => .ok (placeholder, rest)
  | c :: rest =>
    if c.isAlphanum then
      .ok (String.ofList (c :: rest.takeWhile Char.isAlphanum), rest.dropWhile Char.isAlphanum)
    else .error (c :: rest)

/-- Reads a name of the given category, and stops before any other name. -/
def nameOf (category : Category) : Reader String := fun s => do
  let (n, rest) ← name s
  if Category.of? n = some category then return (n, rest) else throw s

/-- Reads items each led by a comma, at most `limit` of them. A comma with no item behind it is
left where it is. -/
def listTail (item : Reader α) : Nat → List Char → List α × List Char
  | limit + 1, ',' :: s =>
    match item s with
    | .ok (a, s') =>
      let (more, s'') := listTail item limit s'
      (a :: more, s'')
    | .error _ => ([], ',' :: s)
  | _, s => ([], s)

/-- Reads one item or more, parted by commas. -/
def list1 (item : Reader α) : Reader (List α) := fun s => do
  let (a, s') ← item s
  let (more, s'') := listTail item s'.length s'
  return (a :: more, s'')

/-- Reads any number of items, parted by commas. -/
def list0 (item : Reader α) : Reader (List α) := fun s =>
  match list1 item s with
  | .ok result => .ok result
  | .error _ => .ok ([], s)

/-- Reads something between two characters. -/
def between (opening closing : Char) (inner : Reader α) : Reader α := fun s => do
  let (_, s) ← char opening s
  let (a, s) ← inner s
  let (_, s) ← char closing s
  return (a, s)

end Reader

open Reader

namespace Term

/-- Reads a term, with `inner` for the arguments of a function. -/
def readWith (inner : Reader Term) : Reader Term := fun s => do
  let (n, rest) ← name s
  match Category.of? n with
  | some .const => return (.const n, rest)
  | some .var => return (.var n, rest)
  | some .func =>
    let (args, rest) ← between '(' ')' (list1 inner) rest
    return (.app ⟨n, args.length⟩ args, rest)
  | some .rel | none => throw s

/-- Reads a term that nests at most `depth` deep. -/
def read : (depth : Nat) → Reader Term
  | 0 => throw
  | depth + 1 => readWith (read depth)

end Term

namespace Formula

/-- The reader of terms for a text of any length. -/
def readTerm : Reader Term := fun s => Term.read (s.length + 1) s

def readNegation (inner : Reader Formula) : Reader Formula := fun s => do
  let (_, s) ← char '~' s
  let (f, s) ← inner s
  return (.neg f, s)

def readConnective : Reader Connective := fun s =>
  (do let (_, s) ← literal Connective.and.chars s; return (.and, s))
    <|> (do let (_, s) ← literal Connective.or.chars s; return (.or, s))
    <|> (do let (_, s) ← literal Connective.implies.chars s; return (.implies, s))

def readBinary (inner : Reader Formula) : Reader Formula :=
  between '(' ')' fun s => do
    let (l, s) ← inner s
    let (op, s) ← readConnective s
    let (r, s) ← inner s
    return (.binary op l r, s)

def readQuantifier : Reader Quantifier := fun s =>
  (do let (_, s) ← char Quantifier.universal.char s; return (.universal, s))
    <|> (do let (_, s) ← char Quantifier.existential.char s; return (.existential, s))

def readQuantified (inner : Reader Formula) : Reader Formula := fun s => do
  let (q, s) ← readQuantifier s
  let (x, s) ← nameOf .var s
  let (f, s) ← between '[' ']' inner s
  return (.quantified q x f, s)

def readRelation : Reader Formula := fun s => do
  let (n, s) ← nameOf .rel s
  let (args, s) ← between '(' ')' (list0 readTerm) s
  return (.relation ⟨n, args.length⟩ args, s)

def readEquality : Reader Formula := fun s => do
  let (l, s) ← readTerm s
  let (_, s) ← char '=' s
  let (r, s) ← readTerm s
  return (.equality l r, s)

/-- Reads a formula that nests at most `depth` deep. -/
def read : (depth : Nat) → Reader Formula
  | 0 => throw
  | depth + 1 => fun s =>
    readNegation (read depth) s <|> readBinary (read depth) s <|> readQuantified (read depth) s
      <|> readRelation s <|> readEquality s

end Formula

/-- What a text was read as. -/
inductive Goal where
  | term
  | formula
deriving DecidableEq

/-- A text that is not the written form of what it should be, and the part of it that was left
where reading stopped. -/
structure ParseFault where
  goal : Goal
  input : String
  remaining : String
deriving DecidableEq

def Goal.noun : Goal → String
  | .term => "term"
  | .formula => "formula"

def ParseFault.message (e : ParseFault) : String :=
  "invalid " ++ e.goal.noun ++ " '" ++ e.input ++ "' (parsing stopped at '" ++ e.remaining ++ "')"

/-- Reads a whole text: what is left over is a fault. -/
def Reader.whole {α : Type} (goal : Goal) (reader : Reader α) (input : String) :
    Except ParseFault α :=
  match reader input.toList with
  | .ok (a, []) => .ok a
  | .ok (_, rest) => .error ⟨goal, input, String.ofList rest⟩
  | .error rest => .error ⟨goal, input, String.ofList rest⟩

def Term.parse (input : String) : Except ParseFault Term :=
  Reader.whole .term (Term.read (input.length + 1)) input

def Formula.parse (input : String) : Except ParseFault Formula :=
  Reader.whole .formula (Formula.read (input.length + 1)) input

end Deduction
