/-!
# Names and their categories

A name says by its spelling what it stands for: a constant, a variable, a function or a relation.
Only ASCII letters and digits occur in a name, and the first of them decides. The one exception is
the placeholder `_`, which is a constant.
-/

namespace Deduction

/-- What a name can stand for. -/
inductive Category where
  | const
  | var
  | func
  | rel
deriving DecidableEq

/-- The reserved constant. It marks the open places of a formula bound to a relation template and
of a term that is parametrised by a position. -/
def placeholder : String := "_"

namespace Category

/-- The category that the first character of a name decides. The letters `e`, `A` to `E` and `U` to
`Z` begin no name, which leaves `A` and `E` to the quantifiers. -/
def ofInitial? (c : Char) : Option Category :=
  if c.isDigit || ('a' ≤ c && c ≤ 'd') then some .const
  else if 'u' ≤ c && c ≤ 'z' then some .var
  else if 'f' ≤ c && c ≤ 't' then some .func
  else if 'F' ≤ c && c ≤ 'T' then some .rel
  else none

def ofChars? : List Char → Option Category
  | [] => none
  | ['_'] => some .const
  | c :: rest => if (c :: rest).all Char.isAlphanum then ofInitial? c else none

/-- The category of a name, or `none` where the text is no name. -/
def of? (name : String) : Option Category :=
  ofChars? name.toList

end Category

def isConst (name : String) : Bool :=
  Category.of? name = some .const

def isVar (name : String) : Bool :=
  Category.of? name = some .var

def isFunc (name : String) : Bool :=
  Category.of? name = some .func

def isRel (name : String) : Bool :=
  Category.of? name = some .rel

end Deduction
