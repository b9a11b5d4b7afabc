import Deduction.NameSet
import Deduction.Table
import Deduction.Expression.Text

/-!
# Schemas and bindings

A schema is a formula together with its template names, which may be replaced to give instances of
it: a variable by a variable, a constant by a term, a relation by a formula. A schema without
templates has one instance, its own formula.

A binding gives a template name its value: a variable, a term or a formula. Bindings keep the order
in which they were made.
-/

namespace Deduction

structure Schema where
  formula : Formula
  templates : NameSet
deriving DecidableEq

namespace Schema

/-- The schema whose only instance is `formula`. -/
def fixed (formula : Formula) : Schema := ⟨formula, .empty⟩

def ofTemplates (formula : Formula) (templates : List String) : Schema :=
  ⟨formula, .ofList templates⟩

/-- The formula, and behind it the templates, if there are any. -/
def text (s : Schema) : String :=
  if s.templates.isEmpty then s.formula.text
  else s.formula.text ++ " [" ++ String.intercalate "," s.templates.toList ++ "]"

end Schema

/-! ## Bindings -/

inductive Binding where
  | var (name : String)
  | term (t : Term)
  | formula (f : Formula)
deriving DecidableEq

namespace Binding

inductive Kind where
  | var
  | term
  | formula
deriving DecidableEq

def kind : Binding → Kind
  | .var _ => .var
  | .term _ => .term
  | .formula _ => .formula

def Kind.phrase : Kind → String
  | .var => "a variable"
  | .term => "a term"
  | .formula => "a formula"

def text : Binding → String
  | .var x => x
  | .term t => t.text
  | .formula f => f.text

end Binding

abbrev Bindings := Table Binding

namespace Bindings

/-- The term bound to a name: a term, or a variable as a term. -/
def term? (bindings : Bindings) (name : String) : Option Term :=
  match bindings.get? name with
  | some (.var x) => some (.var x)
  | some (.term t) => some t
  | _ => none

def formula? (bindings : Bindings) (name : String) : Option Formula :=
  match bindings.get? name with
  | some (.formula f) => some f
  | _ => none

/-- The variable that a variable is renamed to: itself, unless it is bound to another. -/
def rename (bindings : Bindings) (name : String) : String :=
  match bindings.term? name with
  | some (.var x) => x
  | _ => name

def text (bindings : Bindings) : String :=
  "\x7b" ++ String.intercalate ", " (bindings.entries.map fun (name, b) => name ++ " := " ++ b.text)
    ++ "\x7d"

end Bindings

end Deduction
