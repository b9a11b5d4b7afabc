import Deduction.Expression.Formula

/-!
# The written form of terms and formulas

Function and relation symbols stand before their arguments, which stand in round brackets and are
parted by commas. A formula joined by a connective stands in round brackets, the body of a
quantified formula in square ones. Nothing else is bracketed and no blanks occur, so the written
form of a formula shows how it was built.
-/

namespace Deduction

namespace Term

mutual

def chars : Term → List Char
  | .var x => x.toList
  | .const c => c.toList
  | .app f args => f.name.toList ++ '(' :: (charsOfList args ++ [')'])

/-- Terms parted by commas. -/
def charsOfList : List Term → List Char
  | [] => []
  | t :: ts => chars t ++ charsOfRest ts

/-- Terms each led by a comma. -/
def charsOfRest : List Term → List Char
  | [] => []
  | t :: ts => ',' :: (chars t ++ charsOfRest ts)

end

def text (t : Term) : String := String.ofList t.chars

end Term

def Connective.chars : Connective → List Char
  | .and => ['&']
  | .or => ['|']
  | .implies => ['-', '>']

def Quantifier.char : Quantifier → Char
  | .universal => 'A'
  | .existential => 'E'

namespace Formula

def chars : Formula → List Char
  | .equality l r => l.chars ++ '=' :: r.chars
  | .relation s args => s.name.toList ++ '(' :: (Term.charsOfList args ++ [')'])
  | .neg f => '~' :: f.chars
  | .binary op l r => '(' :: (l.chars ++ (op.chars ++ (r.chars ++ [')'])))
  | .quantified q x f => q.char :: (x.toList ++ '[' :: (f.chars ++ [']']))

def text (f : Formula) : String := String.ofList f.chars

end Formula

end Deduction
