import Deduction.Lexicon
import Deduction.NameSet
import Deduction.Table
import Deduction.Expression.Formula

/-!
# Substitution

A substitution sends names of constants and variables to terms, all at once: a term that was put in
is not looked at again. In a formula every constant is replaced and every variable that is free
where it stands. A replacement may not bring in a forbidden variable, and under a quantifier its
variable is forbidden too, so that nothing is captured.

The first place from the left that breaks this rule is reported, with the least of the variables
that break it there.
-/

namespace Deduction

abbrev Substitution := Table Term

namespace Substitution

/-- A substitution can replace constants and variables only. -/
def admits (name : String) : Bool := isConst name || isVar name

end Substitution

/-- A replacement mentions the variable `name`, which is forbidden where the replacement goes. -/
structure Capture where
  name : String
deriving DecidableEq

def Capture.message (c : Capture) : String :=
  "substituted term contains forbidden variable " ++ c.name

/-- The least variable of `t` that is forbidden. -/
def Term.offender? (forbidden : List String) (t : Term) : Option String :=
  NameSet.least? (t.vars.filter (· ∈ forbidden))

/-- The term itself, if it mentions no forbidden variable. -/
def Term.admit (forbidden : List String) (t : Term) : Except Capture Term :=
  match t.offender? forbidden with
  | some x => .error ⟨x⟩
  | none => .ok t

namespace Term

mutual

def substitute (m : Substitution) (forbidden : List String) : Term → Except Capture Term
  | .var x =>
    match m.get? x with
    | some t => t.admit forbidden
    | none => .ok (.var x)
  | .const c =>
    match m.get? c with
    | some t => t.admit forbidden
    | none => .ok (.const c)
  | .app f args => do return .app f (← substituteList m forbidden args)

def substituteList (m : Substitution) (forbidden : List String) :
    List Term → Except Capture (List Term)
  | [] => .ok []
  | t :: ts => do
    let t' ← substitute m forbidden t
    let ts' ← substituteList m forbidden ts
    return t' :: ts'

end

end Term

namespace Formula

def substitute (m : Substitution) (forbidden : List String) : Formula → Except Capture Formula
  | .equality l r => do
    let l' ← l.substitute m forbidden
    let r' ← r.substitute m forbidden
    return .equality l' r'
  | .relation s args => do return .relation s (← Term.substituteList m forbidden args)
  | .neg f => do return .neg (← f.substitute m forbidden)
  | .binary op l r => do
    let l' ← l.substitute m forbidden
    let r' ← r.substitute m forbidden
    return .binary op l' r'
  | .quantified q x f => do
    return .quantified q x (← f.substitute (m.erase x) (x :: forbidden))

end Formula

end Deduction
