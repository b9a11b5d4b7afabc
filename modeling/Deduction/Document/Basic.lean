import Deduction.Table
import Deduction.Json.Value

/-!
# Documents

A document is a schema, a line or a proof with its formulas, terms and bindings as texts. It is what
the JSON form of a proof holds, before anything in it is known to make sense.

Every value in a line is read, also where a field of the line is passed over: a line has to be read
whole before its rule says which fields it has. In a schema or a proof that stands outside a line
the fields that are passed over are skipped, and need not be readable.
-/

namespace Deduction

structure SchemaDoc where
  formula : String
  templates : List String
deriving DecidableEq

inductive ReasonDoc where
  | assumption (schema : SchemaDoc) (bindings : Table String)
  | tautology
  | modusPonens (antecedent conditional : Nat)
  | generalization (predicate : Nat)
deriving DecidableEq

structure LineDoc where
  formula : String
  reason : ReasonDoc
deriving DecidableEq

structure ProofDoc where
  assumptions : List SchemaDoc
  conclusion : String
  lines : List LineDoc
deriving DecidableEq

namespace SchemaDoc

/-- Templates are left out where there are none. -/
def toJson (d : SchemaDoc) : Json :=
  .object (("formula", .string d.formula) ::
    if d.templates.isEmpty then [] else [("templates", .strings d.templates)])

def ofJson? (j : Json) : Option SchemaDoc := do
  match ← j.record? ["formula", "templates"] with
  | [some formula, some templates] => return ⟨← formula.string?, ← templates.strings?⟩
  | [some formula, none] => return ⟨← formula.string?, []⟩
  | _ => none

end SchemaDoc

/-- An object whose values are strings. The last of repeated keys counts, in the place of the
first. -/
def tableOfJson? : Json → Option (Table String)
  | .object fields => do
    return Table.ofList (← fields.mapM fun (key, v) => do return (key, ← v.string?))
  | _ => none

def tableToJson (t : Table String) : Json :=
  .object (t.entries.map fun (key, v) => (key, .string v))

namespace LineDoc

/-- The rule comes first. Bindings are left out where there are none. -/
def toJson (d : LineDoc) : Json :=
  let fields := match d.reason with
    | .assumption schema bindings =>
      ("Assumption", ("assumption", schema.toJson) ::
        if bindings.isEmpty then [] else [("instantiation", tableToJson bindings)])
    | .tautology => ("Tautology", [])
    | .modusPonens antecedent conditional =>
      ("MP", [("antecedent", .nat antecedent), ("conditional", .nat conditional)])
    | .generalization predicate => ("UG", [("predicate", .nat predicate)])
  .object (("rule", .string fields.1) :: ("formula", .string d.formula) :: fields.2)

/-- The rule of a line and its other fields: a line is an object with a field `rule`, or an array
that the rule begins. -/
def ruleAndFields? : Json → Option (String × Json)
  | .object fields =>
    match Json.valuesAt "rule" fields with
    | [.string rule] => some (rule, .object (fields.filter (·.1 ≠ "rule")))
    | _ => none
  | .array (.string rule :: fields) => some (rule, .array fields)
  | _ => none

/-- The line that a rule and its fields make up. -/
def ofRule? (rule : String) (fields : Json) : Option LineDoc := do
  match rule with
  | "Assumption" =>
    match ← fields.record? ["formula", "assumption", "instantiation"] with
    | [some formula, some schema, some bindings] =>
      return ⟨← formula.string?, .assumption (← SchemaDoc.ofJson? schema) (← tableOfJson? bindings)⟩
    | [some formula, some schema, none] =>
      return ⟨← formula.string?, .assumption (← SchemaDoc.ofJson? schema) .empty⟩
    | _ => none
  | "Tautology" =>
    match ← fields.record? ["formula"] with
    | [some formula] => return ⟨← formula.string?, .tautology⟩
    | _ => none
  | "MP" =>
    match ← fields.record? ["formula", "antecedent", "conditional"] with
    | [some formula, some antecedent, some conditional] =>
      return ⟨← formula.string?, .modusPonens (← antecedent.index?) (← conditional.index?)⟩
    | _ => none
  | "UG" =>
    match ← fields.record? ["formula", "predicate"] with
    | [some formula, some predicate] =>
      return ⟨← formula.string?, .generalization (← predicate.index?)⟩
    | _ => none
  | _ => none

/-- The line of a value that stands under `outer` arrays and objects. -/
def ofJson? (outer : Nat) (j : Json) : Option LineDoc := do
  if j.isReadable (Json.nesting - outer) then
    let (rule, fields) ← ruleAndFields? j
    ofRule? rule fields
  else none

end LineDoc

namespace ProofDoc

def toJson (d : ProofDoc) : Json :=
  .object [("assumptions", .array (d.assumptions.map SchemaDoc.toJson)),
    ("conclusion", .string d.conclusion),
    ("lines", .array (d.lines.map LineDoc.toJson))]

def ofJson? (j : Json) : Option ProofDoc := do
  match ← j.record? ["assumptions", "conclusion", "lines"] with
  | [some assumptions, some conclusion, some lines] =>
    return ⟨← (← assumptions.array?).mapM SchemaDoc.ofJson?, ← conclusion.string?,
      ← (← lines.array?).mapM (LineDoc.ofJson? 2)⟩
  | _ => none

end ProofDoc

end Deduction
