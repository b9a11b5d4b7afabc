import Deduction.Expression.Substitution
import Deduction.Schema.Basic

/-!
# Instances of schemas

An instance replaces the bound templates of a schema. A variable is renamed, where it is quantified
too. A constant becomes its term. A relation becomes its formula, with the argument of the relation
in the place of the placeholder, and may have no more than one.

Nothing may be captured on the way. The instance is built under the list of the quantifiers that
stand around the place, innermost first, each with its variable in the schema and in the instance.
No variable that comes in with a term or a formula may be one of the latter. A variable of the
schema belongs to the innermost quantifier that binds it there, and its instance may not be that of
a quantifier further in.
-/

namespace Deduction

/-- Why bindings give no instance of a schema. -/
inductive InstantiationFault where
  | unknownTemplate (name : String)
  /-- The name cannot be bound to a value of the kind `found`; `none` is expected where it cannot
  be bound at all. -/
  | kindMismatch (name : String) (expected : Option Binding.Kind) (found : Binding.Kind)
  | relationArity (relation : String) (arity : Nat)
  | boundVariable (relation : String) (name : String)
  | capture (cause : Capture)
deriving DecidableEq

def InstantiationFault.message : InstantiationFault → String
  | .unknownTemplate name => "'" ++ name ++ "' is not a template of the schema"
  | .kindMismatch name expected found =>
    "template '" ++ name ++ "' must be bound to " ++ (expected.elim "nothing" Binding.Kind.phrase)
      ++ ", found " ++ found.phrase
  | .relationArity relation arity =>
    "relation template '" ++ relation ++ "' is applied to " ++ toString arity
      ++ " arguments (at most one allowed)"
  | .boundVariable relation name =>
    "formula for relation template '" ++ relation ++ "' has free variable " ++ name
      ++ " bound at the application site"
  | .capture cause => cause.message

/-- A quantifier around a place: its variable in the schema and in the instance. -/
structure Binder where
  template : String
  renamed : String
deriving DecidableEq

/-- The instance of a variable under the quantifiers of `scope`, innermost first. -/
def Bindings.variableInstance (bindings : Bindings) (scope : List Binder) (x : String) :
    Except Capture String :=
  let inner := scope.takeWhile (·.template ≠ x)
  let renamed := match scope.dropWhile (·.template ≠ x) with
    | binder :: _ => binder.renamed
    | [] => bindings.rename x
  if inner.any (·.renamed = renamed) then .error ⟨renamed⟩ else .ok renamed

namespace Term

mutual

def instantiate (bindings : Bindings) (scope : List Binder) : Term → Except Capture Term
  | .var x => do return .var (← bindings.variableInstance scope x)
  | .const c =>
    match bindings.term? c with
    | some t => t.admit (scope.map Binder.renamed)
    | none => .ok (.const c)
  | .app f args => do return .app f (← instantiateList bindings scope args)

def instantiateList (bindings : Bindings) (scope : List Binder) :
    List Term → Except Capture (List Term)
  | [] => .ok []
  | t :: ts => do
    let t' ← instantiate bindings scope t
    let ts' ← instantiateList bindings scope ts
    return t' :: ts'

end

end Term

/-- A fault of substitution as one of instantiation. -/
def Capture.lift {α : Type} (result : Except Capture α) : Except InstantiationFault α :=
  result.mapError .capture

namespace Formula

/-- The instance of a bound relation applied to `args`: the formula `body` that it is bound to, with
the argument for the placeholder. -/
def instantiateRelation (bindings : Bindings) (scope : List Binder) (relation : String)
    (body : Formula) (args : List Term) : Except InstantiationFault Formula :=
  if args.length > 1 then .error (.relationArity relation args.length)
  else
    match NameSet.least? (body.freeVars.filter (· ∈ scope.map Binder.renamed)) with
    | some x => .error (.boundVariable relation x)
    | none =>
      match args with
      | [] => .ok body
      | t :: _ => Capture.lift do
        body.substitute (.single placeholder (← t.instantiate bindings scope)) []

def instantiate (bindings : Bindings) (scope : List Binder) :
    Formula → Except InstantiationFault Formula
  | .equality l r => Capture.lift do
    let l' ← l.instantiate bindings scope
    let r' ← r.instantiate bindings scope
    return .equality l' r'
  | .relation s args =>
    match bindings.formula? s.name with
    | some body => instantiateRelation bindings scope s.name body args
    | none => Capture.lift do return .relation s (← Term.instantiateList bindings scope args)
  | .neg f => do return .neg (← f.instantiate bindings scope)
  | .binary op l r => do
    let l' ← l.instantiate bindings scope
    let r' ← r.instantiate bindings scope
    return .binary op l' r'
  | .quantified q x f => do
    let renamed := bindings.rename x
    return .quantified q renamed (← f.instantiate bindings (⟨x, renamed⟩ :: scope))

end Formula

/-- The kind of value that a name of the given category can be bound to. -/
def Category.bindingKind? : Category → Option Binding.Kind
  | .const => some .term
  | .var => some .var
  | .rel => some .formula
  | .func => none

namespace Schema

/-- The binding is to a template of the schema and of the kind that its name takes. -/
def checkBinding (s : Schema) (name : String) (b : Binding) : Except InstantiationFault Unit :=
  let expected := (Category.of? name).bind Category.bindingKind?
  if name ∉ s.templates then .error (.unknownTemplate name)
  else if expected = some b.kind then .ok ()
  else .error (.kindMismatch name expected b.kind)

/-- The instance of the schema. Templates that are not bound stay as they are. -/
def instantiate (s : Schema) (bindings : Bindings) : Except InstantiationFault Formula := do
  bindings.entries.forM fun (name, b) => s.checkBinding name b
  s.formula.instantiate bindings []

end Schema

end Deduction
