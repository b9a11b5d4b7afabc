import Deduction.Schema.Basic

/-!
# The logical axioms

Six schemas on quantifiers and equality. Together with tautologies, modus ponens and generalisation
they make up the calculus, and each session has them among its assumptions.
-/

namespace Deduction

inductive LogicalAxiom where
  | universalInstantiation
  | existentialIntroduction
  | universalSimplification
  | existentialSimplification
  | reflexivity
  | meaningOfEquality
deriving DecidableEq

namespace LogicalAxiom

/-- All of them, in the order in which sessions assume them. -/
def all : List LogicalAxiom :=
  [.universalInstantiation, .existentialIntroduction, .universalSimplification,
    .existentialSimplification, .reflexivity, .meaningOfEquality]

/-- The two letters that the axiom is known by. -/
def code : LogicalAxiom → String
  | .universalInstantiation => "UI"
  | .existentialIntroduction => "EI"
  | .universalSimplification => "US"
  | .existentialSimplification => "ES"
  | .reflexivity => "RX"
  | .meaningOfEquality => "ME"

def ofCode? (code : String) : Option LogicalAxiom := all.find? (·.code = code)

def schema : LogicalAxiom → Schema
  -- (Ax[R(x)]->R(c))
  | .universalInstantiation => .ofTemplates
    (.imp (.all "x" (.holds "R" [.var "x"])) (.holds "R" [.const "c"])) ["R", "x", "c"]
  -- (R(c)->Ex[R(x)])
  | .existentialIntroduction => .ofTemplates
    (.imp (.holds "R" [.const "c"]) (.ex "x" (.holds "R" [.var "x"]))) ["R", "x", "c"]
  -- (Ax[(Q()->R(x))]->(Q()->Ax[R(x)]))
  | .universalSimplification => .ofTemplates
    (.imp (.all "x" (.imp (.holds "Q" []) (.holds "R" [.var "x"])))
      (.imp (.holds "Q" []) (.all "x" (.holds "R" [.var "x"])))) ["Q", "R", "x"]
  -- ((Ax[(R(x)->Q())]&Ex[R(x)])->Q())
  | .existentialSimplification => .ofTemplates
    (.imp (.conj (.all "x" (.imp (.holds "R" [.var "x"]) (.holds "Q" [])))
      (.ex "x" (.holds "R" [.var "x"]))) (.holds "Q" [])) ["Q", "R", "x"]
  -- c=c
  | .reflexivity => .ofTemplates (.equality (.const "c") (.const "c")) ["c"]
  -- (c=d->(R(c)->R(d)))
  | .meaningOfEquality => .ofTemplates
    (.imp (.equality (.const "c") (.const "d"))
      (.imp (.holds "R" [.const "c"]) (.holds "R" [.const "d"]))) ["R", "c", "d"]

end LogicalAxiom

end Deduction
