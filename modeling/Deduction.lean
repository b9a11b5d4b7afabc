import Deduction.Lexicon
import Deduction.Table
import Deduction.OrderedSet
import Deduction.NameSet
import Deduction.Expression.Term
import Deduction.Expression.Formula
import Deduction.Expression.Text
import Deduction.Expression.Reader
import Deduction.Expression.Substitution
import Deduction.Expression.Tree
import Deduction.Proposition.Basic
import Deduction.Proposition.Skeleton
import Deduction.Schema.Basic
import Deduction.Schema.Instance
import Deduction.Schema.Logical
import Deduction.Derivation.Line
import Deduction.Derivation.Proof
import Deduction.Json.Numeral
import Deduction.Json.Value
import Deduction.Json.Reader
import Deduction.Json.Writer
import Deduction.Document.Basic
import Deduction.Document.Conversion
import Deduction.Session.Fault
import Deduction.Session.Event
import Deduction.Session.Basic
import Deduction.Session.Primitive
import Deduction.Session.Specialization
import Deduction.Session.Consequence
import Deduction.Session.Equality
import Deduction.Session.Step
import Deduction.Directory
import Deduction.CommandLine
import Deduction.Main
import Deduction.Proofs.WellFormed
import Deduction.Proofs.Substitution
import Deduction.Proofs.Occurrence
import Deduction.Proofs.Replacement
import Deduction.Proofs.Detour
import Deduction.Proofs.Meaning
import Deduction.Proofs.Instance
import Deduction.Proofs.Admission
import Deduction.Proofs.Agreement
import Deduction.Proofs.AxiomInstance
import Deduction.Proofs.TruthTable
import Deduction.Proofs.Enumeration
import Deduction.Proofs.Skeleton
import Deduction.Proofs.Verification
import Deduction.Proofs.Oracle
import Deduction.Proofs.Soundness
import Deduction.Proofs.Fresh
import Deduction.Proofs.Outcome
import Deduction.Proofs.Rules
import Deduction.Proofs.Composition
import Deduction.Proofs.Primitive
import Deduction.Proofs.Success
import Deduction.Proofs.Specialization
import Deduction.Proofs.Consequence
import Deduction.Proofs.Equality
import Deduction.Proofs.Run
import Deduction.Proofs.OrderedSet
import Deduction.Proofs.Reading
import Deduction.Proofs.Stopping
import Deduction.Proofs.Document
import Deduction.Proofs.Replay
import Deduction.Proofs.Journal
import Deduction.Proofs.Acceptance
import Deduction.Proofs.Exactness
import Deduction.Proofs.Entailment
import Deduction.Proofs.Congruence
import Deduction.Proofs.Locality
