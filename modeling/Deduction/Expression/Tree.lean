import Deduction.Expression.Formula
import Deduction.Json.Value

/-!
# Terms and formulas as JSON trees

Each constructor is an object with one field, named for the constructor. A tree is taken as it is:
neither the names in it nor the arities of its symbols are checked. A connective or quantifier is
the string of its name, or an object with that name and no content.
-/

namespace Deduction

namespace Symbol

def toTree (s : Symbol) : Json :=
  .object [("name", .string s.name), ("arity", .nat s.arity)]

def ofTree? (j : Json) : Option Symbol := do
  match ← j.record? ["name", "arity"] with
  | [some name, some arity] => return ⟨← name.string?, ← arity.index?⟩
  | _ => none

end Symbol

/-- A name alone in a record. -/
def nameOfTree? (j : Json) : Option String := do
  match ← j.record? ["name"] with
  | [some name] => name.string?
  | _ => none

def nameToTree (name : String) : Json := .object [("name", .string name)]

namespace Term

mutual

def toTree : Term → Json
  | .var x => .object [("Variable", nameToTree x)]
  | .const c => .object [("Constant", nameToTree c)]
  | .app f args => .object [("Function", .array [f.toTree, .array (toTrees args)])]

def toTrees : List Term → List Json
  | [] => []
  | t :: ts => toTree t :: toTrees ts

end

mutual

def ofTree? : Json → Option Term
  | .object [("Variable", j)] => (nameOfTree? j).map .var
  | .object [("Constant", j)] => (nameOfTree? j).map .const
  | .object [("Function", .array [f, .array args])] => do
    return .app (← Symbol.ofTree? f) (← ofTrees? args)
  | _ => none

def ofTrees? : List Json → Option (List Term)
  | [] => some []
  | j :: js => do return (← ofTree? j) :: (← ofTrees? js)

end

end Term

namespace Connective

def tag : Connective → String
  | .and => "And"
  | .or => "Or"
  | .implies => "Implies"

def ofTag? : String → Option Connective
  | "And" => some .and
  | "Or" => some .or
  | "Implies" => some .implies
  | _ => none

def ofTree? : Json → Option Connective
  | .string tag | .object [(tag, .null)] => ofTag? tag
  | _ => none

end Connective

namespace Quantifier

def tag : Quantifier → String
  | .universal => "Forall"
  | .existential => "Exists"

def ofTag? : String → Option Quantifier
  | "Forall" => some .universal
  | "Exists" => some .existential
  | _ => none

def ofTree? : Json → Option Quantifier
  | .string tag | .object [(tag, .null)] => ofTag? tag
  | _ => none

end Quantifier

namespace Formula

def toTree : Formula → Json
  | .equality l r => .object [("Equality", .array [l.toTree, r.toTree])]
  | .relation s args => .object [("Relation", .array [s.toTree, .array (Term.toTrees args)])]
  | .neg f => .object [("Not", f.toTree)]
  | .binary op l r => .object [("Binary", .array [.string op.tag, l.toTree, r.toTree])]
  | .quantified q x f =>
    .object [("Quantified", .array [.string q.tag, nameToTree x, f.toTree])]

def ofTree? : Json → Option Formula
  | .object [("Equality", .array [l, r])] => do
    return .equality (← Term.ofTree? l) (← Term.ofTree? r)
  | .object [("Relation", .array [s, .array args])] => do
    return .relation (← Symbol.ofTree? s) (← Term.ofTrees? args)
  | .object [("Not", f)] => (ofTree? f).map .neg
  | .object [("Binary", .array [op, l, r])] => do
    return .binary (← Connective.ofTree? op) (← ofTree? l) (← ofTree? r)
  | .object [("Quantified", .array [q, x, f])] => do
    return .quantified (← Quantifier.ofTree? q) (← nameOfTree? x) (← ofTree? f)
  | _ => none

end Formula

end Deduction
