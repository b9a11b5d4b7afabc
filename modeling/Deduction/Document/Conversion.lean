import Deduction.Derivation.Proof
import Deduction.Document.Basic
import Deduction.Expression.Reader
import Deduction.Json.Reader
import Deduction.Json.Writer

/-!
# Documents and what they say

Loading turns the texts of a document into formulas, terms and bindings, and saving writes them
out. What a binding is read as depends on its template name alone: a variable for a variable, a term
for a constant, a formula for a relation.

A text is accepted as JSON before anything in it is read as a formula. Then the assumptions are
loaded, the lines and the conclusion, and the first fault is reported.
-/

namespace Deduction

/-- Why a document cannot be loaded. -/
inductive DocumentFault where
  /-- The text is not JSON. -/
  | malformed
  /-- The JSON value is not a document of the kind wanted. -/
  | misshapen
  | parse (cause : ParseFault)
  | binding (name value : String)
  | template (name : String)
deriving DecidableEq

def DocumentFault.message : DocumentFault → String
  | .malformed => "invalid JSON: the text is not a JSON value"
  | .misshapen => "invalid JSON: the value has other fields than the document"
  | .parse cause => cause.message
  | .binding name value => "cannot bind '" ++ value ++ "' to template '" ++ name ++ "'"
  | .template name => "'" ++ name ++ "' cannot be a template name"

/-- The document of a JSON text. -/
def readDocument {α : Type} (ofJson? : Json → Option α) (text : String) :
    Except DocumentFault α :=
  match Json.parse? text with
  | none => .error .malformed
  | some j =>
    match ofJson? j with
    | none => .error .misshapen
    | some d => .ok d

def loadTerm (text : String) : Except DocumentFault Term := (Term.parse text).mapError .parse

def loadFormula (text : String) : Except DocumentFault Formula :=
  (Formula.parse text).mapError .parse

namespace Schema

/-- Constants, variables and relations can be templates, the placeholder excepted. -/
def isTemplateName (name : String) : Bool :=
  name ≠ placeholder && (isConst name || isVar name || isRel name)

def toDoc (s : Schema) : SchemaDoc := ⟨s.formula.text, s.templates.toList⟩

def ofDoc (d : SchemaDoc) : Except DocumentFault Schema :=
  match d.templates.find? (!isTemplateName ·) with
  | some name => .error (.template name)
  | none => do return .ofTemplates (← loadFormula d.formula) d.templates

end Schema

/-- The binding of the template `name` that a text stands for. -/
def Binding.ofText (name value : String) : Except DocumentFault Binding :=
  match Category.of? name with
  | some .var => if isVar value then .ok (.var value) else .error (.binding name value)
  | some .const => do return .term (← loadTerm value)
  | some .rel => do return .formula (← loadFormula value)
  | some .func | none => .error (.binding name value)

namespace Bindings

def toTexts (bindings : Bindings) : Table String := bindings.map Binding.text

def ofTexts (texts : Table String) : Except DocumentFault Bindings :=
  texts.traverse Binding.ofText

end Bindings

namespace Line

def toDoc (line : Line) : LineDoc :=
  ⟨line.formula.text, match line.reason with
    | .assumption schema bindings => .assumption schema.toDoc bindings.toTexts
    | .tautology => .tautology
    | .modusPonens antecedent conditional => .modusPonens antecedent conditional
    | .generalization predicate => .generalization predicate⟩

def ofDoc (d : LineDoc) : Except DocumentFault Line := do
  let formula ← loadFormula d.formula
  match d.reason with
  | .assumption schema bindings =>
    let schema ← Schema.ofDoc schema
    let bindings ← Bindings.ofTexts bindings
    return ⟨formula, .assumption schema bindings⟩
  | .tautology => return ⟨formula, .tautology⟩
  | .modusPonens antecedent conditional => return ⟨formula, .modusPonens antecedent conditional⟩
  | .generalization predicate => return ⟨formula, .generalization predicate⟩

end Line

namespace Proof

def toDoc (p : Proof) : ProofDoc :=
  ⟨p.assumptions.toList.map Schema.toDoc, p.conclusion.text, p.lines.map Line.toDoc⟩

def ofDoc (d : ProofDoc) : Except DocumentFault Proof := do
  let assumptions ← d.assumptions.mapM Schema.ofDoc
  let lines ← d.lines.mapM Line.ofDoc
  let conclusion ← loadFormula d.conclusion
  return ⟨.ofList assumptions, conclusion, lines⟩

/-- The proof as a JSON text over several lines. -/
def save (p : Proof) : String := p.toDoc.toJson.pretty

/-- The proof of a JSON text. -/
def load (text : String) : Except DocumentFault Proof := do
  ofDoc (← readDocument ProofDoc.ofJson? text)

end Proof

/-- The line of a JSON text. -/
def Line.load (text : String) : Except DocumentFault Line := do
  Line.ofDoc (← readDocument (LineDoc.ofJson? 0) text)

/-- The schema of a JSON text. -/
def Schema.load (text : String) : Except DocumentFault Schema := do
  Schema.ofDoc (← readDocument SchemaDoc.ofJson? text)

end Deduction
